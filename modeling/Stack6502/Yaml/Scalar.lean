import Stack6502.Yaml.Spot

/-!
# Scalars

The texts of plain, quoted and block scalars. A line end inside a plain or quoted scalar becomes a
space, and of more than one the first is dropped.
-/
namespace Stack6502.Yaml

/-- The text of a scalar and what follows it. -/
structure Scalar where
  text : List Char
  rest : List Spot
  deriving DecidableEq, Repr

/-- What consecutive line ends stand for. -/
def fold : List Char → List Char
  | [] => []
  | '\n' :: [] => [' ']
  | '\n' :: breaks => breaks
  | breaks => breaks

/-- Blanks and line ends that were met and may yet belong to a scalar, the last one first. Blanks
count only before the first line end. -/
structure Gap where
  blanks : List Char
  breaks : List Char
  deriving DecidableEq, Repr

namespace Gap

def empty : Gap := ⟨[], []⟩

def isBroken (g : Gap) : Bool := !g.breaks.isEmpty

def addBlank (g : Gap) (c : Char) : Gap :=
  if g.isBroken then g else { g with blanks := c :: g.blanks }

def addBreak (g : Gap) (c : Char) : Gap := ⟨[], unifyBreak c :: g.breaks⟩

def text (g : Gap) : List Char := if g.isBroken then fold g.breaks.reverse else g.blanks.reverse

end Gap

/-- A colon before a gap ends a plain scalar; between brackets, the signs of a collection do. -/
def endsPlain (inFlow : Bool) (c : Char) (rest : List Spot) : Bool :=
  (c == ':' && atGap rest) ||
    (inFlow && (c == ',' || c == '?' || c == '[' || c == ']' || c == '\x7b' || c == '\x7d'))

/-- After a gap a comment, a boundary or a lesser indentation ends a plain scalar. -/
def endsAfterGap (inFlow : Bool) (indent : Int) (s : Spot) (spots : List Spot) : Bool :=
  s.char == '#' || atAnyBoundary spots || (!inFlow && s.column < indent)

/-- A plain scalar and whether line ends follow it. The text so far stands in reverse. -/
def plainFrom (inFlow : Bool) (indent : Int) :
    (afterGap : Bool) → Gap → (text : List Char) → List Spot → Option (Scalar × Bool)
  | _, gap, text, [] => some (⟨text.reverse, []⟩, gap.isBroken)
  | afterGap, gap, text, s :: rest =>
    if isBreak s.char then plainFrom inFlow indent true (gap.addBreak s.char) text rest
    else if isBlank s.char then
      if gap.isBroken && s.char == '\t' && s.column < indent then none
      else plainFrom inFlow indent true (gap.addBlank s.char) text rest
    else if (afterGap && endsAfterGap inFlow indent s (s :: rest)) || endsPlain inFlow s.char rest
    then some (⟨text.reverse, s :: rest⟩, gap.isBroken)
    else plainFrom inFlow indent false .empty (s.char :: (gap.text.reverse ++ text)) rest

/-- A plain scalar in a collection that is indented by less than `indent`. -/
def plain (inFlow : Bool) (indent : Int) (spots : List Spot) : Option (Scalar × Bool) :=
  plainFrom inFlow indent false .empty [] spots

inductive QuoteMode
  | content
  /-- After a backslash. -/
  | escape
  /-- Inside an escape with some digits left. -/
  | digits (left value : Nat)
  /-- At the second of two apostrophes. -/
  | doubled
  deriving DecidableEq, Repr

def escaped? : Char → Option Char
  | '0' => some '\x00'
  | 'a' => some '\x07'
  | 'b' => some '\x08'
  | 't' | '\t' => some '\t'
  | 'n' => some '\n'
  | 'v' => some '\x0b'
  | 'f' => some '\x0c'
  | 'r' => some '\r'
  | 'e' => some '\x1b'
  | ' ' => some ' '
  | '"' => some '"'
  | '\\' => some '\\'
  | 'N' => some '\u0085'
  | '_' => some '\u00a0'
  | 'L' => some '\u2028'
  | 'P' => some '\u2029'
  | c => if c == apostrophe then some apostrophe else none
where
  apostrophe : Char := Char.ofNat 0x27

/-- How many digits follow an escape letter. -/
def escapeDigits? : Char → Option Nat
  | 'x' => some 2
  | 'u' => some 4
  | 'U' => some 8
  | _ => none

def hexDigit? (c : Char) : Option Nat :=
  if c.isDigit then some (c.toNat - 48)
  else if 'a' ≤ c && c ≤ 'f' then some (c.toNat - 87)
  else if 'A' ≤ c && c ≤ 'F' then some (c.toNat - 55)
  else none

/-- A character by number, except surrogates and numbers too large. -/
def charOf? (n : Nat) : Option Char := if n.isValidChar then some (Char.ofNat n) else none

/-- A quoted scalar up to the closing `quote`. A line end after a backslash is dropped, so the gap
it starts is `joined`. The text so far stands in reverse. -/
def quotedFrom (quote : Char) : QuoteMode → (joined : Bool) → Gap → (text : List Char) →
    List Spot → Option Scalar
  | _, _, _, _, [] => none
  | .doubled, joined, gap, text, _ :: rest => quotedFrom quote .content joined gap text rest
  | .digits left value, joined, gap, text, s :: rest => do
    let value := value * 16 + (← hexDigit? s.char)
    if left ≤ 1 then quotedFrom quote .content joined gap ((← charOf? value) :: text) rest
    else quotedFrom quote (.digits (left - 1) value) joined gap text rest
  | .escape, joined, gap, text, s :: rest =>
    if isBreak s.char then quotedFrom quote .content true gap text rest
    else match escapeDigits? s.char with
      | some n => quotedFrom quote (.digits n 0) joined gap text rest
      | none => do quotedFrom quote .content joined gap ((← escaped? s.char) :: text) rest
  | .content, joined, gap, text, s :: rest =>
    if isBreak s.char then quotedFrom quote .content joined (gap.addBreak s.char) text rest
    else if isBlank s.char then
      quotedFrom quote .content joined (if joined then gap else gap.addBlank s.char) text rest
    else if atAnyBoundary (s :: rest) then none
    else
      let text := (if joined then gap.breaks else gap.text.reverse) ++ text
      if s.char == quote then
        if quote != '"' && rest.head?.any (·.char == quote) then
          quotedFrom quote .doubled false .empty (quote :: text) rest
        else some ⟨text.reverse, rest⟩
      else if s.char == '\\' && quote == '"' then quotedFrom quote .escape false .empty text rest
      else quotedFrom quote .content false .empty (s.char :: text) rest

/-- A quoted scalar after its opening `quote`. -/
def quoted (quote : Char) (spots : List Spot) : Option Scalar :=
  quotedFrom quote .content false .empty [] spots

/-- What becomes of the line ends at the end of a block scalar. -/
inductive Chomp
  | clip | strip | keep
  deriving DecidableEq, Repr

/-- The marks after the sign of a block scalar: how to end it, and how far it is indented. -/
structure BlockHeader where
  chomp : Chomp
  indent : Option Nat
  deriving DecidableEq, Repr

def chomp? : Char → Option Chomp
  | '+' => some .keep
  | '-' => some .strip
  | _ => none

def dropDigit : List Spot → Option (Option Nat × List Spot)
  | s :: rest =>
    if s.char == '0' then none
    else if s.char.isDigit then some (some (s.char.toNat - 48), rest)
    else some (none, s :: rest)
  | [] => some (none, [])

def dropChomp : List Spot → Option Chomp × List Spot
  | s :: rest =>
    match chomp? s.char with
    | some c => (some c, rest)
    | none => (none, s :: rest)
  | [] => (none, [])

/-- The marks may come in either order, and a comment may follow. -/
def blockHeader (spots : List Spot) : Option (BlockHeader × List Spot) := do
  let (chomp, indent, rest) ← match dropChomp spots with
    | (some c, rest) => do
      let (indent, rest) ← dropDigit rest
      pure (c, indent, rest)
    | (none, rest) => do
      let (indent, rest) ← dropDigit rest
      match indent, dropChomp rest with
      | some _, (some c, rest) => pure (c, indent, rest)
      | _, _ => pure (.clip, indent, rest)
  let rest := rest.dropWhile (isBlank ·.char)
  let rest := if rest.head?.any (·.char == '#') then rest.dropWhile (!isBreak ·.char) else rest
  if atLineEnd rest then some (⟨chomp, indent⟩, rest.drop 1) else none

/-- Line ends before the next line with content, in reverse, the furthest column met, and the
line after its indentation. An `indent` of zero is not known yet. -/
def emptyLines (indent : Nat) : (breaks : List Char) → (furthest : Nat) → List Spot →
    Option (List Char × Nat × List Spot)
  | breaks, furthest, [] => some (breaks, furthest, [])
  | breaks, furthest, s :: rest =>
    if isBreak s.char then emptyLines indent (unifyBreak s.char :: breaks) furthest rest
    else if (indent == 0 || s.column < indent) && s.char == ' ' then
      emptyLines indent breaks (max furthest (s.column + 1)) rest
    else if (indent == 0 || s.column < indent) && s.char == '\t' then none
    else some (breaks, furthest, s :: rest)

/-- What stands between two lines of a block scalar. Folding joins lines that do not start with a
blank. -/
def lineJoint (literal : Bool) (wasBlank isBlank : Bool) (lineEnd : Option Char)
    (breaks : List Char) : List Char :=
  match lineEnd with
  | none => breaks
  | some c =>
    if !literal && !wasBlank && !isBlank && c == '\n' then
      if breaks.isEmpty then [' '] else breaks
    else c :: breaks

/-- The line end after the last line and the empty lines after it, as far as they are kept. -/
def lastBreaks (chomp : Chomp) (lineEnd : Option Char) (breaks : List Char) : List Char :=
  match chomp with
  | .strip => []
  | .clip => lineEnd.toList
  | .keep => lineEnd.toList ++ breaks

/-- The lines of a block scalar. The text so far, the line end after it and the empty lines after
that are given, the text and the empty lines in reverse. -/
def blockFrom (literal : Bool) (chomp : Chomp) (indent : Nat) : (fuel : Nat) → (wasBlank : Bool) →
    (text : List Char) → (lineEnd : Option Char) → (breaks : List Char) → List Spot → Option Scalar
  | 0, _, _, _, _, _ => none
  | fuel + 1, wasBlank, text, lineEnd, breaks, spots =>
    match spots with
    | s :: _ =>
      if s.column == indent then do
        let blank := isBlank s.char
        let joint := lineJoint literal wasBlank blank lineEnd breaks.reverse
        let line := (spots.takeWhile (!isBreak ·.char)).map (·.char)
        let rest := spots.dropWhile (!isBreak ·.char)
        let (breaks, _, after) ← emptyLines indent [] 0 (rest.drop 1)
        blockFrom literal chomp indent fuel blank (line.reverse ++ (joint.reverse ++ text))
          (rest.head?.map (unifyBreak ·.char)) breaks after
      else some ⟨text.reverse ++ lastBreaks chomp lineEnd breaks.reverse, spots⟩
    | [] => some ⟨text.reverse ++ lastBreaks chomp lineEnd breaks.reverse, []⟩

/-- A block scalar after its sign, in a collection indented by `parent`. Its indentation is given
or found at its first line. -/
def blockScalar (literal : Bool) (parent : Int) (spots : List Spot) : Option Scalar := do
  let (header, body) ← blockHeader spots
  let given := match header.indent with
    | some n => (max parent 0).toNat + n
    | none => 0
  let (breaks, furthest, rest) ← emptyLines given [] 0 body
  let indent := if given == 0 then max furthest (max (parent + 1).toNat 1) else given
  blockFrom literal header.chomp indent (spots.length + 1) false [] none breaks rest

end Stack6502.Yaml
