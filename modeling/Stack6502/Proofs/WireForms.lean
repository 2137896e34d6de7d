import Stack6502.Program.Wire
import Stack6502.Proofs.BinaryItems
import Stack6502.Proofs.InstrReadBack

/-!
# The binary form read back

The pairs of an instruction are counted by one set of conditions and written by another. Both agree
with the pairs that the instruction shows, so a reader of maps gets back exactly these.
-/
namespace Stack6502

/-! ### Lengths of values

Only names can be long. Opcodes and values stay far below the lengths that a head can hold. -/

theorem Text.length_ofNat_le {n k : ℕ} (hk : 0 < k) (h : n < 10 ^ k) : (ofNat n).length ≤ k := by
  rw [ofNat, ofDigits, List.length_map]
  exact (Nat.length_toDigits_le_iff (by decide) hk).mpr h

theorem RoundingRange.eq_or_of_pick? {r : RoundingRange} {below d : Decimal}
    (h : r.pick? below = some d) : d = below ∨ d = below.next := by
  rw [pick?_eq] at h
  split at h
  · cases h
    exact r.nearer_eq_or below
  · cases h
    exact .inl rfl
  · cases h
    exact .inr rfl
  · cases h

namespace Double

variable {x : Double}

theorem digits_leading_lt {size : ℕ} (h : (Nat.toDigits 10 x.expansion).length = size)
    (count : ℕ) : (leading x.expansion size count).digits < 10 ^ count := by
  have hpos : 0 < size := h ▸ Nat.length_toDigits_pos
  have hexpansion : x.expansion < 10 ^ size :=
    (Nat.length_toDigits_le_iff (by decide) hpos).mp h.le
  refine Nat.div_lt_of_lt_mul (hexpansion.trans_le ?_)
  rw [Nat.pow_eq, ← pow_add]
  exact Nat.pow_le_pow_right (by decide) (by omega)

/-- Seventeen digits, and one more if they are rounded up to a power of ten. -/
theorem digits_shortest_le (x : Double) : x.shortest.digits ≤ 10 ^ 17 := by
  obtain ⟨size, hsize⟩ : ∃ size, (Nat.toDigits 10 x.expansion).length = size := ⟨_, rfl⟩
  simp only [shortest, hsize]
  cases hfound : (List.range 17).findSome? fun n =>
      (RoundingRange.ofDouble x).pick? (leading x.expansion size (n + 1)) with
  | none => exact (digits_leading_lt hsize 17).le
  | some d =>
    obtain ⟨n, hn, hpick⟩ := List.exists_of_findSome?_eq_some hfound
    have hlt := digits_leading_lt hsize (n + 1)
    have hpow : 10 ^ (n + 1) ≤ 10 ^ 17 :=
      Nat.pow_le_pow_right (by decide) (List.mem_range.mp hn)
    rcases RoundingRange.eq_or_of_pick? hpick with rfl | rfl
    · exact hlt.le.trans hpow
    · exact Nat.le_trans hlt hpow

/-- The point of a float that is written stands no farther from its digits than doubles reach. -/
theorem point_bounds (hfinite : x.isFinite) (hzero : x.isZero = false) :
    -330 ≤ x.shortest.power + (Text.ofNat x.shortest.digits).length ∧
      x.shortest.power + (Text.ofNat x.shortest.digits).length ≤ 310 := by
  have hx := mantissa_pos hzero
  have hpos := FloatLiteral.pos_of_holds hx (holds_shortest hx)
  have hsize := FloatLiteral.size_bounds hfinite hx (holds_shortest hx)
  rw [FloatLiteral.decimalSize, if_neg hpos.ne'] at hsize
  rw [Text.ofNat, Text.ofDigits, List.length_map]
  omega

theorem length_leadingDigits_le (n : ℕ) : (leadingDigits n).length ≤ (Text.ofNat n).length := by
  rw [leadingDigits, List.length_reverse]
  exact (List.dropWhile_sublist _).length_le.trans List.length_reverse.le

theorem length_positional_le (digits : Text) (point : ℤ) :
    (positional digits point).length ≤ digits.length + point.natAbs + 2 := by
  have hzero : (Text.ofString "0.").length = 2 := rfl
  unfold positional
  split_ifs with hsmall hlarge
  · simp only [List.length_append, hzero, length_zeros]
    omega
  · simp only [List.length_append, length_zeros]
    omega
  · simp only [List.length_append, List.length_take, List.length_drop, List.length_singleton]
    omega

theorem length_exponential_le (digits : Text) {point : ℤ} (h : (point - 1).natAbs < 1000) :
    (exponential digits point).length ≤ digits.length + 7 := by
  have hexponent : (Text.ofNat (point - 1).natAbs).length ≤ 3 :=
    Text.length_ofNat_le (by decide) h
  have htail : (if (digits.drop 1).isEmpty then [] else Text.byte '.' :: digits.drop 1).length ≤
      digits.length + 1 := by
    split_ifs
    · exact Nat.zero_le _
    · rw [List.length_cons, List.length_drop]
      omega
  rw [exponential]
  simp only [List.length_append, Text.padLeft, List.length_replicate, List.length_take,
    List.length_cons, List.length_nil]
  omega

theorem length_text_le (x : Double) : (x.text .value).length ≤ 32 := by
  have hsign : x.signText.length ≤ 1 := by
    rw [signText]
    split_ifs <;> decide
  unfold text
  split_ifs with hnan hinfinite hnegative hzero
  · decide
  · decide
  · decide
  · rw [List.length_append]
    exact Nat.add_le_add hsign (by decide : (Text.ofString "0").length ≤ 31)
  · have hfinite : x.isFinite := by
      by_contra hfinite
      exact hinfinite (isInfinite_of_isNaN (by simpa using hfinite) (by simpa using hnan))
    have hpoint := point_bounds hfinite (by simpa using hzero)
    have hall : (Text.ofNat x.shortest.digits).length ≤ 18 :=
      Text.length_ofNat_le (by decide) ((digits_shortest_le x).trans_lt (by norm_num))
    have hdigits := length_leadingDigits_le x.shortest.digits
    rw [List.length_append]
    split_ifs with hstyle
    · refine (Nat.add_le_add hsign (length_exponential_le _ (by omega))).trans ?_
      show 1 + ((leadingDigits x.shortest.digits).length + 7) ≤ 32
      omega
    · have hlimit : FloatStyle.value.limit = 6 := rfl
      rw [hlimit, Bool.or_eq_true, decide_eq_true_iff, decide_eq_true_iff, not_or] at hstyle
      refine (Nat.add_le_add hsign (length_positional_le _ _)).trans ?_
      show 1 + ((leadingDigits x.shortest.digits).length + _ + 2) ≤ 32
      omega

end Double

theorem Value.length_text_le (v : Value) : v.text.length ≤ 32 := by
  cases v with
  | float x => exact x.length_text_le
  | int i =>
    have hlow := i.le_toInt
    have hhigh := i.toInt_lt
    rw [Value.text]
    cases hi : i.toInt with
    | ofNat n =>
      rw [hi, Int.ofNat_eq_natCast] at hhigh
      have hn : (Text.ofNat n).length ≤ 19 := Text.length_ofNat_le (by decide) (by omega)
      exact hn.trans (by decide)
    | negSucc n =>
      have hn : (Text.ofNat (n + 1)).length ≤ 19 := Text.length_ofNat_le (by decide) (by omega)
      exact (Nat.succ_le_succ hn).trans (by decide)

theorem Opcode.length_names_lt : ∀ op ∈ all, (Text.ofString op.name).length < 24 := by
  simp only [Text.ofString_eq_data]
  decide +kernel

theorem Coded.length_opcodeName_lt (op : Coded Opcode) : op.opcodeName.length < 24 := by
  cases op with
  | known op => exact Opcode.length_names_lt op op.mem_all
  | stray n => exact (by decide : (Text.ofString "OPCODE(?)").length < 24)

namespace Instr

/-! ### The pairs of an instruction -/

inductive Shows (x : Instr) : (key value : Text) → Prop
  | op : x.Shows "op" x.op.opcodeName
  | arg {v : Value} (h : x.arg = some v) : x.Shows "arg" v.text
  | arg2 {v : Value} (h : x.arg2 = some v) : x.Shows "arg2" v.text
  | sym (h : x.sym ≠ []) : x.Shows "sym" x.sym
  | sym2 (h : x.sym2 ≠ []) : x.Shows "sym2" x.sym2

def valuePairs (key : Text) (value : Option Value) : List (Text × Text) :=
  value.toList.map fun v => (key, v.text)

def namePairs (key name : Text) : List (Text × Text) :=
  if name.isEmpty then [] else [(key, name)]

def pairs (x : Instr) : List (Text × Text) :=
  (Text.ofString "op", x.op.opcodeName) :: (valuePairs "arg" x.arg ++ (valuePairs "arg2" x.arg2 ++
    (namePairs "sym" x.sym ++ namePairs "sym2" x.sym2)))

def pairBytes (ps : List (Text × Text)) : Text := ps.flatMap fun p => Cbor.pair p.1 p.2

theorem appendValue_eq (b key : Text) (value : Option Value) :
    appendValue b key value = b ++ pairBytes (valuePairs key value) := by
  cases value with
  | none => exact (List.append_nil b).symm
  | some v => simp [appendValue, valuePairs, pairBytes]

theorem appendName_eq (b key name : Text) :
    appendName b key name = b ++ pairBytes (namePairs key name) := by
  unfold appendName namePairs
  split_ifs
  · exact (List.append_nil b).symm
  · simp [pairBytes]

theorem appendWire_eq (b : Text) (x : Instr) :
    appendWire b x = b ++ (Cbor.head .map x.pairCount ++ pairBytes x.pairs) := by
  simp only [appendWire, appendName_eq, appendValue_eq, pairs, pairBytes, List.flatMap_cons,
    List.flatMap_append, List.append_assoc]

/-- The count that is made beforehand is the number of pairs that follow. -/
theorem pairCount_eq (x : Instr) : x.pairCount = x.pairs.length := by
  have hvalue (key : Text) (value : Option Value) :
      (valuePairs key value).length = value.isSome.toNat := by
    cases value <;> rfl
  have hname (key name : Text) : (namePairs key name).length = (!name.isEmpty).toNat := by
    unfold namePairs
    cases name.isEmpty <;> rfl
  simp only [pairCount, pairs, List.length_cons, List.length_append, hvalue, hname]
  omega

theorem mem_valuePairs {key key' text : Text} {value : Option Value} :
    (key', text) ∈ valuePairs key value ↔ key' = key ∧ ∃ v, value = some v ∧ text = v.text := by
  cases value with
  | none => simp [valuePairs]
  | some v => simp [valuePairs]

theorem mem_namePairs {key key' name text : Text} :
    (key', text) ∈ namePairs key name ↔ key' = key ∧ name ≠ [] ∧ text = name := by
  cases name with
  | nil => simp [namePairs]
  | cons b name => simp [namePairs]

theorem mem_pairs_iff {x : Instr} {key value : Text} :
    (key, value) ∈ x.pairs ↔ x.Shows key value := by
  simp only [pairs, List.mem_cons, List.mem_append, mem_valuePairs, mem_namePairs, Prod.mk.injEq]
  constructor
  · rintro (⟨rfl, rfl⟩ | ⟨rfl, v, h, rfl⟩ | ⟨rfl, v, h, rfl⟩ | ⟨rfl, h, rfl⟩ | ⟨rfl, h, rfl⟩)
    · exact .op
    · exact .arg h
    · exact .arg2 h
    · exact .sym h
    · exact .sym2 h
  · intro h
    cases h with
    | op => exact .inl ⟨rfl, rfl⟩
    | arg h => exact .inr (.inl ⟨rfl, _, h, rfl⟩)
    | arg2 h => exact .inr (.inr (.inl ⟨rfl, _, h, rfl⟩))
    | sym h => exact .inr (.inr (.inr (.inl ⟨rfl, h, rfl⟩)))
    | sym2 h => exact .inr (.inr (.inr (.inr ⟨rfl, h, rfl⟩)))

theorem nodup_keys (x : Instr) : (x.pairs.map Prod.fst).Nodup := by
  have hvalue (key : Text) (value : Option Value) :
      ((valuePairs key value).map Prod.fst).Sublist [key] := by
    cases value <;> simp [valuePairs]
  have hname (key name : Text) : ((namePairs key name).map Prod.fst).Sublist [key] := by
    unfold namePairs
    split_ifs <;> simp
  have hkeys : (x.pairs.map Prod.fst).Sublist
      (["op", "arg", "arg2", "sym", "sym2"].map Text.ofString) := by
    simp only [pairs, List.map_cons, List.map_append]
    exact ((hvalue _ _).append ((hvalue _ _).append ((hname _ _).append (hname _ _)))).cons_cons _
  exact hkeys.nodup (by decide)

/-! ### Reading -/

theorem Shows.fits {x : Instr} {key value : Text} (h : x.Shows key value) (hsym : Cbor.Fits x.sym)
    (hsym2 : Cbor.Fits x.sym2) : Cbor.Fits key ∧ Cbor.Fits value := by
  have hsmall {t : Text} (ht : t.length ≤ 32) : Cbor.Fits t := ht.trans_lt (by decide)
  cases h with
  | op => exact ⟨hsmall (by decide), hsmall ((Coded.length_opcodeName_lt _).le.trans (by decide))⟩
  | arg h => exact ⟨hsmall (by decide), hsmall (Value.length_text_le _)⟩
  | arg2 h => exact ⟨hsmall (by decide), hsmall (Value.length_text_le _)⟩
  | sym h => exact ⟨hsmall (by decide), hsym⟩
  | sym2 h => exact ⟨hsmall (by decide), hsym2⟩

theorem readHead_wire (x : Instr) (rest : Text) :
    Cbor.readHead .map (x.wire ++ rest) = some (x.pairs.length, pairBytes x.pairs ++ rest) := by
  have hcount : x.pairCount < 0x10000000000000000 := by
    have := Bool.toNat_le x.arg.isSome
    have := Bool.toNat_le x.arg2.isSome
    have := Bool.toNat_le (!x.sym.isEmpty)
    have := Bool.toNat_le (!x.sym2.isEmpty)
    rw [pairCount]
    omega
  rw [wire, appendWire_eq, List.nil_append, List.append_assoc, Cbor.readHead_head .map hcount,
    pairCount_eq]

theorem readMap_wire {x : Instr} (hsym : Cbor.Fits x.sym) (hsym2 : Cbor.Fits x.sym2)
    (rest : Text) : Cbor.readMap (x.wire ++ rest) = some (x.pairs, rest) := by
  have hfits : ∀ p ∈ x.pairs, Cbor.Fits p.1 ∧ Cbor.Fits p.2 :=
    fun p hp => (mem_pairs_iff.mp hp).fits hsym hsym2
  rw [Cbor.readMap, readHead_wire]
  exact Cbor.readPairs_flatMap hfits rest

/-- The binary form is put after whatever stands before it. A reader of maps finds as many pairs as
the form says it has, and they are what the instruction shows. No bytes of it are left, and what
follows it is not touched. So two instructions that are written alike show the same. -/
theorem wire_decodes (x : Instr) (hsym : Cbor.Fits x.sym) (hsym2 : Cbor.Fits x.sym2) :
    (∀ b, appendWire b x = b ++ x.wire) ∧
    (∃ pairs : List (Text × Text),
      (∀ rest, (Cbor.readHead .map (x.wire ++ rest)).map Prod.fst = some pairs.length ∧
        Cbor.readMap (x.wire ++ rest) = some (pairs, rest)) ∧
      (pairs.map Prod.fst).Nodup ∧ ∀ key value, (key, value) ∈ pairs ↔ x.Shows key value) ∧
    ∀ y : Instr, Cbor.Fits y.sym → Cbor.Fits y.sym2 → ∀ rest rest' : Text,
      x.wire ++ rest = y.wire ++ rest' →
        rest = rest' ∧ ∀ key value, x.Shows key value ↔ y.Shows key value := by
  refine ⟨fun b => ?_, ⟨x.pairs, fun rest => ⟨?_, readMap_wire hsym hsym2 rest⟩, x.nodup_keys,
    fun _ _ => mem_pairs_iff⟩, ?_⟩
  · rw [wire, appendWire_eq, appendWire_eq, List.nil_append]
  · rw [readHead_wire, Option.map_some]
  · intro y hy hy2 rest rest' heq
    have hread := congrArg Cbor.readMap heq
    rw [readMap_wire hsym hsym2, readMap_wire hy hy2, Option.some_inj, Prod.mk.injEq] at hread
    obtain ⟨hpairs, hrest⟩ := hread
    exact ⟨hrest, fun key value => by rw [← mem_pairs_iff, hpairs, mem_pairs_iff]⟩

def longAssembly : Instr :=
  { op := .known .inlineAssembly, sym := List.replicate 300 (Text.byte 'A') }

theorem wire_decodes_longAssembly : ∃ pairs, Cbor.readMap longAssembly.wire = some (pairs, []) ∧
    (Text.ofString "sym", List.replicate 300 (Text.byte 'A')) ∈ pairs := by
  have hsym : Cbor.Fits longAssembly.sym := by
    rw [Cbor.Fits, longAssembly, List.length_replicate]
    decide
  obtain ⟨-, ⟨pairs, hread, -, hmem⟩, -⟩ := wire_decodes longAssembly hsym (by decide)
  refine ⟨pairs, ?_, (hmem _ _).mpr (.sym ?_)⟩
  · rw [← (hread []).2, List.append_nil]
  · rw [longAssembly]
    exact List.cons_ne_nil _ _

end Instr

end Stack6502
