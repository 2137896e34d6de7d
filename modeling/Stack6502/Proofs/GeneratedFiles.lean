import Stack6502.Command.Run
import Stack6502.Proofs.Renaming

/-!
# Generated files

Files are generated one after another, each from the tree that the ones before it left. A file that
fails changes nothing and is the last one tried, so the tree after a run is the tree before it with
one whole file written for each name up to the one that failed.
-/
namespace Stack6502

/-! ### Writing to a tree -/

namespace FileTree

variable {t t' : FileTree} {l l' start : Location} {e : FileEntry} {path text name : Text}

theorem lookup_cons_eq (m : Location) (e : FileEntry) (es : List (Location × FileEntry)) :
    List.lookup l ((m, e) :: es) = if l = m then some e else es.lookup l := by
  rw [List.lookup_cons]
  by_cases h : l = m <;> simp [h, beq_false_of_ne]

theorem lookup_setEntry (es : List (Location × FileEntry)) :
    (setEntry e l es).lookup l' = if l' = l then some e else es.lookup l' := by
  induction es with
  | nil => rw [setEntry, lookup_cons_eq]
  | cons first rest ih =>
    obtain ⟨m, f⟩ := first
    rw [setEntry]
    by_cases hm : m = l
    · rw [if_pos hm, lookup_cons_eq, lookup_cons_eq, hm]
      by_cases h : l' = l <;> simp [h]
    · rw [if_neg hm, lookup_cons_eq, lookup_cons_eq, ih]
      by_cases h : l' = m <;> simp [h, hm]

theorem isAbove_of_entry? (h : t.entry? l ≠ some .dir) : isAbove l = false := by
  cases habove : isAbove l with
  | true => exact absurd (if_pos habove) h
  | false => rfl

/-- What is no directory is set, and nothing else changes. -/
theorem entry?_set (h : t.entry? l ≠ some .dir) :
    FileTree.entry? (t.set l e) l' = if l' = l then some e else t.entry? l' := by
  rw [FileTree.entry?, set, lookup_setEntry]
  by_cases hl : l' = l
  · simp [hl, isAbove_of_entry? h]
  · simp [hl, FileTree.entry?]

theorem entry?_of_step {next : Location} (h : t.step l name = .ok next) :
    t.entry? l = some .dir := by
  unfold step at h
  cases hentry : t.entry? l with
  | none =>
    rw [hentry] at h
    cases h
  | some e =>
    rw [hentry] at h
    cases e with
    | dir => rfl
    | file content => cases h

/-- A path leads past directories only, so it leads to the same place once a file is set. -/
theorem walk_set (h : t.entry? l ≠ some .dir) {names : List Text}
    (hwalk : t.walk start names = .ok l') : (t.set l e).walk start names = .ok l' := by
  induction names generalizing start with
  | nil => exact hwalk
  | cons name names ih =>
    obtain ⟨next, hstep, hwalk⟩ := bind_eq_ok_iff.mp hwalk
    have hdir := entry?_of_step hstep
    have hne : start ≠ l := by
      rintro rfl
      exact h hdir
    have hsame : (t.set l e).step start name = t.step start name := by
      rw [step, step, entry?_set h, if_neg hne]
    exact bind_eq_ok_iff.mpr ⟨next, hsame.trans hstep, ih hwalk⟩

theorem locate_set (h : t.entry? l ≠ some .dir) (hlocate : t.locate path = .ok l') :
    (t.set l e).locate path = .ok l' := by
  unfold locate at hlocate ⊢
  split_ifs at hlocate ⊢
  · exact walk_set h hlocate
  · exact walk_set h hlocate

/-- The text stands at the path, and all else is as before. -/
structure IsWrite (t : FileTree) (path text : Text) (t' : FileTree) : Prop where
  entries : ∃ l, t.locate path = .ok l ∧ t.entry? l ≠ some .dir ∧
    ∀ l', t'.entry? l' = if l' = l then some (.file text) else t.entry? l'
  read : t'.read path = .ok text

theorem isWrite_of_write (h : t.write path text = .ok t') : t.IsWrite path text t' := by
  unfold write at h
  cases hlocate : t.locate path with
  | error problem =>
    rw [hlocate] at h
    cases h
  | ok l =>
    rw [hlocate] at h
    dsimp only at h
    split at h
    · cases h
    · next hdir =>
      cases h
      refine ⟨⟨l, hlocate, hdir, fun l' => entry?_set hdir⟩, ?_⟩
      rw [FileTree.read, locate_set hdir hlocate]
      dsimp only
      rw [entry?_set hdir, if_pos rfl]

theorem not_isWrite_of_write {fault : FileFault} (h : t.write path text = .error fault) :
    ¬ t.IsWrite path text t' := by
  rintro ⟨⟨l, hlocate, hdir, -⟩, -⟩
  unfold write at h
  rw [hlocate] at h
  dsimp only at h
  split at h
  · next heq => exact hdir heq
  · cases h

end FileTree

/-! ### One file -/

theorem run_bind_of_run {α β : Type} {m : StateM FileTree α} {f : α → StateM FileTree β} {a : α}
    {t t' : FileTree} (h : m.run t = (a, t')) : (m >>= f).run t = (f a).run t' := by
  rw [StateT.run_bind, h]
  rfl

theorem run_write (path text : Text) (t : FileTree) :
    (FileAccess.write path text : StateM FileTree _).run t =
      ((t.write path text).map fun _ => (), (t.write path text).toOption.getD t) := by
  simp only [FileAccess.write, StateT.run_modifyGet]
  cases t.write path text <;> rfl

section Generating

variable [Decoder]

def assembly? (opts : Options) (input : Text) : Option (Program × Text) := do
  let (p, heap) ← (Program.read input).toOption
  let text ← ((p.assemble opts heap).run .start).1.toOption
  return (p, text)

/-- A file is read and its assembly is written, as a whole, under the name of its program. -/
def FileTree.Generates (opts : Options) (dir : Text) (t : FileTree) (name : Text)
    (t' : FileTree) : Prop :=
  ∃ input p text, t.read name = .ok input ∧ assembly? opts input = some (p, text) ∧
    t.IsWrite (Path.join dir (p.name ++ ".asm")) text t'

section OneFile

variable {opts : Options} {dir name input text : Text} {t t' : FileTree}

theorem not_generates_of_read {fault : FileFault} (h : t.read name = .error fault) :
    ¬ t.Generates opts dir name t' := by
  rintro ⟨input, p, text, hread, -⟩
  cases h.symm.trans hread

theorem not_generates_of_assembly? (hread : t.read name = .ok input)
    (h : assembly? opts input = none) : ¬ t.Generates opts dir name t' := by
  rintro ⟨input', p, text, hread', hassembly, -⟩
  cases hread.symm.trans hread'
  cases h.symm.trans hassembly

theorem not_generates_of_write {p : Program} {fault : FileFault} (hread : t.read name = .ok input)
    (hassembly : assembly? opts input = some (p, text))
    (h : t.write (outputPath dir p) text = .error fault) : ¬ t.Generates opts dir name t' := by
  rintro ⟨input', p', text', hread', hassembly', hwrite⟩
  cases hread.symm.trans hread'
  cases hassembly.symm.trans hassembly'
  exact FileTree.not_isWrite_of_write h hwrite

theorem assembly?_eq_some_iff {p : Program} : assembly? opts input = some (p, text) ↔
    ∃ heap session, Program.read input = .ok (p, heap) ∧
      (p.assemble opts heap).run .start = (.ok text, session) := by
  unfold assembly?
  cases Program.read input with
  | error fault => simp [Except.toOption]
  | ok loaded =>
    obtain ⟨q, heap⟩ := loaded
    cases hassemble : (q.assemble opts heap).run .start with
    | mk result session =>
      cases result with
      | error fault =>
        simp only [Except.toOption, hassemble, Option.bind_eq_bind, Option.bind_some,
          Option.bind_none, reduceCtorEq, false_iff, Except.ok.injEq, Prod.mk.injEq]
        rintro ⟨heap, session', ⟨rfl, rfl⟩, hok⟩
        cases hassemble.symm.trans hok
      | ok made =>
        simp only [Except.toOption, hassemble, Option.bind_eq_bind, Option.bind_some,
          Option.pure_def, Option.some.injEq, Except.ok.injEq, Prod.mk.injEq]
        constructor
        · rintro ⟨rfl, rfl⟩
          exact ⟨heap, session, ⟨rfl, rfl⟩, hassemble⟩
        · rintro ⟨heap, session', ⟨rfl, rfl⟩, hok⟩
          cases hassemble.symm.trans hok
          exact ⟨rfl, rfl⟩

theorem run_readProgram (name : Text) (t : FileTree) :
    (readProgram name : StateM FileTree _).run t =
      ((t.read name).mapError InputFault.read >>= fun text =>
        (Program.read text).mapError (.load name), t) := by
  have hread : (FileAccess.read name : StateM FileTree _).run t = (t.read name, t) := rfl
  rw [readProgram, run_bind_of_run hread]
  cases t.read name <;> rfl

/-- What keeps a text from being assembled is found before anything is written. -/
theorem run_generateFile_of_none (hread : t.read name = .ok input)
    (h : assembly? opts input = none) : ∃ g fault, g.result = .error fault ∧
      (generateFile opts dir name : StateM FileTree Generated).run t = (g, t) := by
  rw [generateFile, StateT.run_bind, run_readProgram, hread]
  cases hload : Program.read input with
  | error fault =>
    simp only [hload, Except.mapError, bind, Except.bind]
    exact ⟨_, _, rfl, rfl⟩
  | ok loaded =>
    obtain ⟨p, heap⟩ := loaded
    simp only [hload, Except.mapError, bind, Except.bind]
    cases hassemble : (p.assemble opts heap).run .start with
    | mk result session =>
      cases result with
      | error fault => exact ⟨_, _, rfl, rfl⟩
      | ok text =>
        rw [assembly?, hload] at h
        simp [Except.toOption, hassemble] at h

theorem run_generateFile_of_some {p : Program} (hread : t.read name = .ok input)
    (h : assembly? opts input = some (p, text)) : ∃ tally,
      (generateFile opts dir name : StateM FileTree Generated).run t =
        (⟨((t.write (outputPath dir p) text).mapError (.create p.name)).map fun _ =>
            outputPath dir p, tally⟩,
          (t.write (outputPath dir p) text).toOption.getD t) := by
  obtain ⟨heap, session, hload, hassemble⟩ := assembly?_eq_some_iff.mp h
  have hloaded : (t.read name).mapError InputFault.read >>= (fun text =>
      (Program.read text).mapError (.load name)) = .ok (p, heap) := by
    rw [hread]
    exact congrArg (Except.mapError _) hload
  have hread := run_readProgram name t
  rw [hloaded] at hread
  rw [generateFile, run_bind_of_run hread]
  dsimp only
  rw [hassemble]
  dsimp only
  rw [run_bind_of_run (run_write (outputPath dir p) text t)]
  cases t.write (outputPath dir p) text <;> exact ⟨_, rfl⟩

/-- A file is generated or, if anything fails, the tree is left as it was. -/
theorem generateFile_run (opts : Options) (dir name : Text) (t : FileTree) :
    ∃ g t', (generateFile opts dir name : StateM FileTree Generated).run t = (g, t') ∧
      ((∃ path, g.result = .ok path) ∧ t.Generates opts dir name t' ∨
        (∃ fault, g.result = .error fault) ∧ t' = t ∧ ∀ u, ¬ t.Generates opts dir name u) := by
  cases hread : t.read name with
  | error fault =>
    rw [generateFile, StateT.run_bind, run_readProgram, hread]
    exact ⟨_, _, rfl, .inr ⟨⟨_, rfl⟩, rfl, fun u => not_generates_of_read hread⟩⟩
  | ok input =>
    cases hassembly : assembly? opts input with
    | none =>
      obtain ⟨g, fault, hfault, hrun⟩ := run_generateFile_of_none hread hassembly
      exact ⟨g, t, hrun, .inr ⟨⟨fault, hfault⟩, rfl, fun u =>
        not_generates_of_assembly? hread hassembly⟩⟩
    | some made =>
      obtain ⟨p, text⟩ := made
      obtain ⟨tally, hrun⟩ := run_generateFile_of_some hread hassembly
      refine ⟨_, _, hrun, ?_⟩
      cases hwrite : t.write (outputPath dir p) text with
      | error fault =>
        exact .inr ⟨⟨_, rfl⟩, rfl, fun u => not_generates_of_write hread hassembly hwrite⟩
      | ok t' =>
        exact .inl ⟨⟨_, rfl⟩, input, p, text, hread, hassembly, FileTree.isWrite_of_write hwrite⟩

end OneFile

/-! ### File after file -/

/-- Each file is generated from the tree that the one before it left. -/
inductive FileTree.GeneratesAll (opts : Options) (dir : Text) :
    FileTree → List Text → FileTree → Prop
  | nil (t : FileTree) : GeneratesAll opts dir t [] t
  | cons {t u t' : FileTree} {name : Text} {names : List Text}
    (hfirst : t.Generates opts dir name u) (hrest : GeneratesAll opts dir u names t') :
    GeneratesAll opts dir t (name :: names) t'

namespace Command

/-- The names up to the first that fails are generated. The induction is on the names, and the tree
goes along. -/
theorem genFiles_run (opts : Options) (dir : Text) (names : List Text) (tally : Tally)
    (t : FileTree) : ∃ run t' done left,
      (genFiles opts dir names tally : StateM FileTree GenRun).run t = (run, t') ∧
      names = done ++ left ∧ t.GeneratesAll opts dir done t' ∧
      (left = [] ∧ run.failure = none ∨ ∃ name later fault, left = name :: later ∧
        run.failure = some (name, fault) ∧ ∀ u, ¬ t'.Generates opts dir name u) := by
  induction names generalizing tally t with
  | nil => exact ⟨_, t, [], [], rfl, rfl, .nil t, .inl ⟨rfl, rfl⟩⟩
  | cons name names ih =>
    obtain ⟨g, u, hfile, ⟨⟨path, hpath⟩, hgenerates⟩ | ⟨⟨fault, hfault⟩, rfl, hnone⟩⟩ :=
      generateFile_run opts dir name t
    · obtain ⟨run, t', done, left, hrun, rfl, hall, hend⟩ :=
        ih (tally.merge (g.tally.getD .empty)) u
      rw [genFiles, run_bind_of_run hfile, hpath]
      dsimp only
      rw [run_bind_of_run hrun]
      exact ⟨_, t', name :: done, left, rfl, rfl, .cons hgenerates hall, hend⟩
    · rw [genFiles, run_bind_of_run hfile, hfault]
      exact ⟨_, u, [], name :: names, rfl, rfl, .nil u,
        .inr ⟨name, names, fault, rfl, rfl, hnone⟩⟩

theorem runCommand_gen {args : List Text} {a : Arguments}
    (h : Arguments.parse true false args ⟨genUsage.flags, topUsage.flags, []⟩ = .ok (.act a)) :
    (runCommand ("gen" :: args) : StateM FileTree Outcome) = gen a := by
  have hflag : Flag.isFlag "gen" = false := by decide
  have hname : Subcommand.ofName? "gen" = some .gen := by decide
  have hparse : Arguments.parse (Subcommand.gen.usage).takesArgs false args
      ⟨(Subcommand.gen.usage).flags, topUsage.flags, []⟩ = .ok (.act a) := h
  rw [runCommand, run, hflag, if_neg Bool.false_ne_true, hname]
  dsimp only
  rw [runSubcommand, hparse]
  rfl

/-- Files are generated in order up to the first that fails, and each of them is written as a whole.
The one that fails leaves the tree as it was and ends the run, and only then the exit code is not
zero. -/
theorem gen_writes_whole_files {a : Arguments} {opts : Options} (hopts : genOptions a = .ok opts)
    (t : FileTree) :
    (∃ outcome t' done left, (gen a : StateM FileTree Outcome).run t = (outcome, t') ∧
      a.rest = done ++ left ∧ t.GeneratesAll opts (a.text "out") done t' ∧
      (left = [] ∧ outcome.code = 0 ∨ ∃ name later, left = name :: later ∧ outcome.code = 1 ∧
        ∀ u, ¬ t'.Generates opts (a.text "out") name u)) ∧
    ∀ args, Arguments.parse true false args ⟨genUsage.flags, topUsage.flags, []⟩ = .ok (.act a) →
      (runCommand ("gen" :: args) : StateM FileTree Outcome) = gen a := by
  refine ⟨?_, fun _ => runCommand_gen⟩
  obtain ⟨run, t', done, left, hrun, hsplit, hall, hend⟩ :=
    genFiles_run opts (a.text "out") a.rest .empty t
  rw [gen, hopts]
  dsimp only
  rw [run_bind_of_run hrun]
  refine ⟨_, t', done, left, rfl, hsplit, hall, ?_⟩
  rcases hend with ⟨hleft, hnone⟩ | ⟨name, later, fault, hleft, hsome, hfails⟩
  · refine .inl ⟨hleft, ?_⟩
    rw [hnone]
    rfl
  · refine .inr ⟨name, later, hleft, ?_, hfails⟩
    rw [hsome]
    rfl

end Command

end Generating

theorem Command.gen_writes_whole_files_missing :
    let t : FileTree := ⟨[(["a"], .file "name: b")]⟩
    let a : Arguments := ⟨genUsage.flags, topUsage.flags, ["a", "c"]⟩
    let opts : Options :=
      { Options.standard with catalog := { Catalog.standard with window := 6 } }
    genOptions a = .ok opts ∧
      ∃ outcome t',
        (runCommand ["gen", "a", "c"] : StateM FileTree Outcome).run t = (outcome, t') ∧
        t.GeneratesAll opts "." ["a"] t' ∧ outcome.code = 1 ∧
        ∀ u, ¬ t'.Generates opts "." "c" u := by
  intro t a opts
  have hopts : genOptions a = .ok opts := rfl
  obtain ⟨⟨outcome, t', done, left, hrun, hsplit, hall, hend⟩, hcommand⟩ :=
    gen_writes_whole_files hopts t
  rw [← hcommand ["a", "c"] (by decide +kernel)] at hrun
  have hresult : outcome.code = 1 ∧ t' ≠ t := by
    have hcode : ((runCommand ["gen", "a", "c"] : StateM FileTree Outcome).run t).1.code = 1 ∧
        ((runCommand ["gen", "a", "c"] : StateM FileTree Outcome).run t).2 ≠ t := by
      decide +kernel
    rwa [hrun] at hcode
  rcases hend with ⟨-, hzero⟩ | ⟨name, later, rfl, -, hfails⟩
  · cases hresult.1.symm.trans hzero
  · rcases done with _ | ⟨first, _ | ⟨second, done⟩⟩
    · cases hall
      exact absurd rfl hresult.2
    · obtain ⟨rfl, hrest⟩ := List.cons.inj hsplit
      obtain ⟨rfl, -⟩ := List.cons.inj hrest
      exact ⟨hopts, outcome, t', hrun, hall, hresult.1, hfails⟩
    · have hlength := congrArg List.length hsplit
      simp [a] at hlength

end Stack6502
