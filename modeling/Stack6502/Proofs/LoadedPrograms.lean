import Stack6502.Program.Document
import Stack6502.Program.Load
import Stack6502.Proofs.Renaming

/-!
# Programs as they were decoded

A program that is loaded is the one that was decoded, field by field: no number and no item is lost
or moved. The load address and the items of arrays must be integers, and a float in their place is
refused. Only the address of a block is not asked for its kind, and a float there counts as none.
-/
namespace Stack6502

/-! ### Programs and what they are loaded from -/

structure Decl.IsLoaded (s : DeclSource) (d : Decl) : Prop where
  name : d.name = s.name
  type : ∃ type, DataType.parse? s.type = some type ∧ d.type = .known type
  value : d.value = s.value
  heap : d.heap = s.heap
  isConst : d.isConst = s.isConst

/-- A given address is kept if it is an integer. -/
structure Block.IsLoaded (s : BlockSource) (b : Block) : Prop where
  named : s.name ≠ []
  name : b.name = s.name
  short : b.short = if s.short = [] then s.name else s.short
  address : s.address = some (.int b.address) ∨
    (s.address = none ∨ ∃ x, s.address = some (.float x)) ∧ b.address = 0
  decls : List.Forall₂ Decl.IsLoaded s.decls b.decls
  code : b.code = s.code.map (·.val)

structure Payload.IsLoaded (s : PayloadSource) (p : Payload) : Prop where
  str : p.str = s.str
  array : s.array = p.array.map .int
  floats : p.floats = s.floats

structure Program.IsLoaded (s : ProgramSource) (p : Program) (heap : Heap) : Prop where
  name : p.name = s.name
  launcher : ∃ l, p.launcher = .known l ∧
    (s.launcher = [] ∧ l = .basic ∨ s.launcher ≠ [] ∧ Launcher.parse? s.launcher = some l)
  load : s.load = some (.int p.load) ∨ s.load = none ∧ p.load = 0
  blocks : List.Forall₂ Block.IsLoaded s.blocks p.blocks
  heap : List.Forall₂ (fun e e' => e'.1 = e.1 ∧ e'.2.IsLoaded e.2) s.heap heap

/-! ### Checking what was decoded -/

theorem mapM_eq_ok_iff {α β ε : Type} {f : α → Except ε β} {as : List α} {bs : List β} :
    as.mapM f = .ok bs ↔ List.Forall₂ (fun a b => f a = .ok b) as bs := by
  induction as generalizing bs with
  | nil => simp [pure, Except.pure, eq_comm]
  | cons a as ih =>
    rw [List.mapM_cons, List.forall₂_cons_left_iff, bind_eq_ok_iff]
    constructor
    · rintro ⟨b, hb, h⟩
      obtain ⟨rest, hrest, h⟩ := bind_eq_ok_iff.mp h
      cases h
      exact ⟨b, rest, hb, ih.mp hrest, rfl⟩
    · rintro ⟨b, rest, hb, hrest, rfl⟩
      exact ⟨b, hb, bind_eq_ok_iff.mpr ⟨rest, ih.mpr hrest, rfl⟩⟩

namespace Load

theorem launcher_eq_ok_iff {name : Text} {l : Coded Launcher} : launcher name = .ok l ↔
    ∃ l', l = .known l' ∧
      (name = [] ∧ l' = .basic ∨ name ≠ [] ∧ Launcher.parse? name = some l') := by
  cases name with
  | nil => simp [launcher, eq_comm]
  | cons b rest =>
    cases hparse : Launcher.parse? (b :: rest) <;> simp [launcher, hparse, eq_comm]

theorem loadAddress_eq_ok_iff {v : Option Value} {address : Int64} :
    loadAddress v = .ok address ↔ v = some (.int address) ∨ v = none ∧ address = 0 := by
  cases v with
  | none => simp [loadAddress, eq_comm]
  | some v => cases v <;> simp [loadAddress]

theorem blockAddress_eq_iff {v : Option Value} {address : Int64} : blockAddress v = address ↔
    v = some (.int address) ∨ (v = none ∨ ∃ x, v = some (.float x)) ∧ address = 0 := by
  cases v with
  | none => simp [blockAddress, eq_comm]
  | some v => cases v <;> simp [blockAddress, eq_comm]

theorem decl_eq_ok_iff {block : Text} {s : DeclSource} {d : Decl} :
    decl block s = .ok d ↔ d.IsLoaded s := by
  unfold decl
  constructor
  · intro h
    cases hparse : DataType.parse? s.type with
    | none =>
      rw [hparse] at h
      cases h
    | some type =>
      rw [hparse] at h
      cases h
      exact ⟨rfl, ⟨type, hparse, rfl⟩, rfl, rfl, rfl⟩
  · obtain ⟨name, type, value, heap, isConst⟩ := d
    rintro ⟨rfl, ⟨type, hparse, rfl⟩, rfl, rfl, rfl⟩
    rw [hparse]

theorem block_eq_ok_iff {s : BlockSource} {b : Block} : block s = .ok b ↔ b.IsLoaded s := by
  by_cases hnamed : s.name = []
  · rw [block, if_pos (by simp [hnamed])]
    exact iff_of_false (by simp) fun h => h.named hnamed
  · rw [block, if_neg (by simpa using hnamed), bind_eq_ok_iff]
    simp only [mapM_eq_ok_iff, decl_eq_ok_iff, List.isEmpty_iff]
    constructor
    · rintro ⟨decls, hdecls, ⟨⟩⟩
      exact ⟨hnamed, rfl, rfl, blockAddress_eq_iff.mp rfl, hdecls, rfl⟩
    · obtain ⟨name, short, address, decls, code⟩ := b
      rintro ⟨-, rfl, rfl, haddress, hdecls, rfl⟩
      obtain rfl := blockAddress_eq_iff.mpr haddress
      exact ⟨decls, hdecls, rfl⟩

theorem arrayItem_eq_ok_iff {handle : Int64} {v : Value} {n : Int64} :
    arrayItem handle v = .ok n ↔ v = .int n := by
  cases v <;> simp [arrayItem]

theorem payload_eq_ok_iff {e : Int64 × PayloadSource} {e' : Int64 × Payload} :
    payload e = .ok e' ↔ e'.1 = e.1 ∧ e'.2.IsLoaded e.2 := by
  have harray {vs : List Value} {ns : List Int64} :
      List.Forall₂ (fun v n => v = Value.int n) vs ns ↔ vs = ns.map .int := by
    rw [← List.forall₂_eq_eq_eq, List.forall₂_map_right_iff]
  rw [payload, bind_eq_ok_iff]
  simp only [mapM_eq_ok_iff, arrayItem_eq_ok_iff, harray]
  constructor
  · rintro ⟨array, hsame, ⟨⟩⟩
    exact ⟨rfl, rfl, hsame, rfl⟩
  · obtain ⟨handle, str, array, floats⟩ := e'
    rintro ⟨rfl, rfl, hsame, rfl⟩
    exact ⟨array, hsame, rfl⟩

end Load

/-- The block without its address if that is a float. -/
def BlockSource.dropFloat (b : BlockSource) : BlockSource :=
  { b with address := b.address.filter fun v => !v.isFloat }

theorem Load.block_dropFloat (b : BlockSource) : block b.dropFloat = block b := by
  obtain ⟨name, short, address, decls, code⟩ := b
  cases address with
  | none => rfl
  | some v => cases v <;> rfl

namespace ProgramSource

variable {source : ProgramSource} {p : Program} {heap : Heap}

theorem check_eq_ok_iff : source.check = .ok (p, heap) ↔ p.IsLoaded source heap := by
  simp only [check, bind_eq_ok_iff, mapM_eq_ok_iff, Load.launcher_eq_ok_iff,
    Load.loadAddress_eq_ok_iff, Load.block_eq_ok_iff, Load.payload_eq_ok_iff]
  constructor
  · rintro ⟨launcher, hlauncher, load, hload, blocks, hblocks, entries, hheap, ⟨⟩⟩
    exact ⟨rfl, hlauncher, hload, hblocks, hheap⟩
  · obtain ⟨name, launcher, load, blocks⟩ := p
    rintro ⟨rfl, hlauncher, hload, hblocks, hheap⟩
    exact ⟨launcher, hlauncher, load, hload, blocks, hblocks, heap, hheap, rfl⟩

/-- Whether there is a float where an integer is asked for: as the load address or in an array. -/
def hasStrayFloat (source : ProgramSource) : Bool :=
  source.load.any Value.isFloat || source.heap.any fun e => e.2.array.any Value.isFloat

end ProgramSource

theorem exists_mem_of_forall₂ {α β : Type} {r : α → β → Prop} {as : List α} {bs : List β}
    (h : List.Forall₂ r as bs) {a : α} (ha : a ∈ as) : ∃ b ∈ bs, r a b := by
  induction h with
  | nil => cases ha
  | @cons _ b _ bs hfirst _ ih =>
    cases ha with
    | head => exact ⟨b, List.mem_cons_self, hfirst⟩
    | tail _ ha =>
      obtain ⟨b', hb', hr⟩ := ih ha
      exact ⟨b', List.mem_cons_of_mem _ hb', hr⟩

theorem Program.IsLoaded.hasStrayFloat_eq_false {source : ProgramSource} {p : Program}
    {heap : Heap} (h : p.IsLoaded source heap) : source.hasStrayFloat = false := by
  rw [ProgramSource.hasStrayFloat, Bool.or_eq_false_iff]
  constructor
  · rcases h.load with hload | ⟨hload, -⟩
    · rw [hload]
      rfl
    · rw [hload]
      rfl
  · rw [List.any_eq_false]
    intro e he
    obtain ⟨e', -, -, hpayload⟩ := exists_mem_of_forall₂ h.heap he
    rw [hpayload.array]
    simp [Value.isFloat]

/-- The code of a loaded program is read from texts. -/
theorem Program.exists_parse_of_read [Decoder] {t : Text} {p : Program} {heap : Heap}
    (h : read t = .ok (p, heap)) {b : Block} (hb : b ∈ p.blocks) {x : Instr} (hx : x ∈ b.code) :
    ∃ u, Instr.parse u = .ok x := by
  obtain ⟨source, -, hcheck⟩ := bind_eq_ok_iff.mp h
  obtain ⟨s, -, hblock⟩ :=
    exists_mem_of_forall₂ (ProgramSource.check_eq_ok_iff.mp hcheck).blocks.flip hb
  rw [hblock.code] at hx
  obtain ⟨written, -, rfl⟩ := List.mem_map.mp hx
  exact written.property

namespace ProgramSource

/-- What is loaded is what was decoded. A float as the load address or in an array is refused, and a
float as the address of a block is as good as no address. -/
theorem check_keeps_numbers (source : ProgramSource) :
    (∀ p heap, source.check = .ok (p, heap) ↔ p.IsLoaded source heap) ∧
    (source.hasStrayFloat → ∃ fault, source.check = .error fault) ∧
    { source with blocks := source.blocks.map BlockSource.dropFloat }.check = source.check ∧
    ∀ [Decoder] t, Decoder.decode t = .ok source → Program.read t = source.check := by
  refine ⟨fun p heap => check_eq_ok_iff, fun hfloat => ?_, ?_, fun t ht => ?_⟩
  · cases hcheck : source.check with
    | error fault => exact ⟨fault, rfl⟩
    | ok loaded =>
      rw [(check_eq_ok_iff.mp hcheck).hasStrayFloat_eq_false] at hfloat
      cases hfloat
  · simp only [check, List.mapM_map, Function.comp_def, Load.block_dropFloat]
  · rw [Program.read, ht]
    rfl

theorem check_keeps_numbers_load :
    let source : ProgramSource :=
      { load := some (.int 2), blocks := [{ name := "a", address := some (.int 7) }],
        heap := [(1, { array := [.int 3] })] }
    let p : Program := ⟨[], .known .basic, 2, [⟨"a", "a", 7, [], []⟩]⟩
    source.check = .ok (p, [(1, ⟨[], [3], []⟩)]) ∧ p.IsLoaded source [(1, ⟨[], [3], []⟩)] ∧
      ∃ fault, check { heap := [(1, { array := [.float ⟨0x3fe0000000000000⟩] })] } =
        .error fault := by
  intro source p
  have hcheck : source.check = .ok (p, [(1, ⟨[], [3], []⟩)]) := by decide
  exact ⟨hcheck, ((check_keeps_numbers source).1 _ _).mp hcheck,
    (check_keeps_numbers _).2.1 (by decide)⟩

/-- The address 1.5 is given, and the block has none. -/
theorem check_drops_float_address :
    let source : ProgramSource :=
      { blocks := [{ name := "a", address := some (.float ⟨0x3ff8000000000000⟩) }] }
    read "blocks:\n- name: a\n  address: 1.5" = .ok source ∧
      source.check = .ok (⟨[], .known .basic, 0, [⟨"a", "a", 0, [], []⟩]⟩, []) := by
  decide +kernel

end ProgramSource

end Stack6502
