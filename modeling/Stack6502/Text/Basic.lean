/-!
# Byte texts

Names, source texts and assembly are byte sequences. Most of them are UTF-8, none has to be, so
a text is a list of bytes and every operation here is defined on all of them.
-/
namespace Stack6502

/-- A text as bytes. String literals are read as their UTF-8 form. -/
abbrev Text := List UInt8

namespace Text

def ofString (s : String) : Text := s.toList.flatMap String.utf8EncodeChar

instance : Coe String Text := ⟨ofString⟩

/-- The byte of an ASCII character. -/
def byte (c : Char) : UInt8 := c.toNat.toUInt8

def tab : UInt8 := 0x09
def newline : UInt8 := 0x0a
def space : UInt8 := 0x20

/-- The digits of `n` in base `base`, most significant first. -/
def ofDigits (base n : Nat) : Text := (Nat.toDigits base n).map byte

def ofNat (n : Nat) : Text := ofDigits 10 n

def ofInt : Int → Text
  | .ofNat n => ofNat n
  | .negSucc n => byte '-' :: ofNat (n + 1)

/-- `t` with `fill` put in front until it has `width` bytes. -/
def padLeft (width : Nat) (fill : UInt8) (t : Text) : Text :=
  List.replicate (width - t.length) fill ++ t

def padRight (width : Nat) (fill : UInt8) (t : Text) : Text :=
  t ++ List.replicate (width - t.length) fill

/-- The pieces of `t` between the separators, one more than there are separators. -/
def splitOn (sep : UInt8) : Text → List Text
  | [] => [[]]
  | b :: t =>
    match splitOn sep t with
    | [] => [[b]]
    | piece :: pieces => if b = sep then [] :: piece :: pieces else (b :: piece) :: pieces

/-- The lines of `t`, each with the newline that ends it. Only the last one may lack it. -/
def lines : Text → List Text
  | [] => []
  | b :: t =>
    if b = newline then [b] :: lines t
    else match lines t with
      | [] => [[b]]
      | line :: rest => (b :: line) :: rest

theorem flatten_lines (t : Text) : (lines t).flatten = t := by
  induction t with
  | nil => rfl
  | cons b t ih =>
    unfold lines
    split
    · simp [ih]
    · split <;> simp_all

def join (sep : Text) (ts : List Text) : Text := List.intercalate sep ts

/-- What stands before the first `sep` and, if there is one, what follows it. -/
def cut (sep : UInt8) (t : Text) : Text × Option Text :=
  match t.dropWhile (· != sep) with
  | [] => (t, none)
  | _ :: rest => (t.takeWhile (· != sep), some rest)

/-- The rest of `t` after `start`, if `t` begins with it. -/
def after? : (start t : Text) → Option Text
  | [], t => some t
  | _ :: _, [] => none
  | a :: start, b :: t => if a = b then after? start t else none

def startsWith (start t : Text) : Bool := (after? start t).isSome

/-- `skip` bytes belong to an occurrence already replaced. -/
def replaceFrom (old new : Text) : (skip : Nat) → Text → Text
  | _, [] => []
  | skip + 1, _ :: t => replaceFrom old new skip t
  | 0, b :: t =>
    if startsWith old (b :: t) then new ++ replaceFrom old new (old.length - 1) t
    else b :: replaceFrom old new 0 t

/-- Occurrences of a nonempty `old`, found from left to right without overlap, become `new`. -/
def replaceAll (old new t : Text) : Text := replaceFrom old new 0 t

/-- Bytes compare as numbers, and a text comes after its own beginnings. -/
def less : (a b : Text) → Bool
  | _, [] => false
  | [], _ :: _ => true
  | x :: a, y :: b => x < y || (x == y && less a b)

end Text

end Stack6502
