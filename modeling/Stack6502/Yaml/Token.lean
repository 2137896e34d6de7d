import Stack6502.Yaml.Scalar

/-!
# Tokens

A document as signs, scalars, and the starts and ends of the blocks that its indentation makes. A
scalar or collection turns out to be a key only when a colon follows it on the same line; the signs
for the key, and for the mapping that it may open, then go in front of it.

Tokens are handed out from a queue that looks two tokens ahead, and further while the first one may
turn out to be a key. Malformed text beyond a document does no harm if it is further away.
-/
namespace Stack6502.Yaml

inductive Sign
  | streamEnd
  | documentStart
  | documentEnd
  | sequenceStart
  | mappingStart
  | blockEnd
  | flowSequenceStart
  | flowSequenceEnd
  | flowMappingStart
  | flowMappingEnd
  | entry
  | comma
  | key
  | value
  | scalar (isPlain : Bool) (text : Text)
  deriving DecidableEq, Repr

/-- A sign and its line, counted from one. -/
structure Token where
  sign : Sign
  line : Nat
  deriving DecidableEq, Repr

/-- A place where a key may start. -/
structure Opening where
  /-- The number of tokens before it. -/
  position : Nat
  /-- Whether it is still open what starts there. -/
  isOpen : Bool
  /-- Nothing but a key can stand there. -/
  isRequired : Bool
  spot : Spot
  deriving DecidableEq, Repr

structure Scanner where
  spots : List Spot
  /-- Where the text ends. -/
  ending : Spot
  /-- The tokens read and not handed out, the next one first. -/
  queue : List Token
  /-- The number of tokens handed out. -/
  handed : Nat
  /-- The columns of the blocks that are open, the innermost first. -/
  indents : List Nat
  /-- The last place where a key may have started, for each bracket that is open, the innermost
  first, and then for the blocks. -/
  openings : List Opening
  /-- Tokens that wait for an opening, by their number and by the bracket level of the opening. -/
  waiting : List (Nat × Nat)
  /-- Whether a key may start here. -/
  keyAllowed : Bool
  deriving DecidableEq, Repr

namespace Scanner

def start (spots : List Spot) : Scanner :=
  let ending := endSpot spots
  { spots, ending, queue := [], handed := 0, indents := [],
    openings := [⟨0, false, false, ending⟩], waiting := [], keyAllowed := true }

/-- The number of brackets that are open. -/
def level (s : Scanner) : Nat := s.openings.length - 1

def inFlow (s : Scanner) : Bool := 0 < s.level

/-- The place of the scanner. -/
def here (s : Scanner) : Spot := s.spots.headD s.ending

/-- The column of the innermost block, or one less than any. -/
def indent (s : Scanner) : Int :=
  match s.indents with
  | [] => -1
  | n :: _ => n

/-- The number of the next token to be read. -/
def count (s : Scanner) : Nat := s.handed + s.queue.length

def opening (s : Scanner) : Opening := s.openings.headD ⟨0, false, false, s.ending⟩

def push (s : Scanner) (sign : Sign) (line : Nat) : Scanner :=
  { s with queue := s.queue ++ [⟨sign, line + 1⟩] }

/-- Puts a token before the one of a number, or last if that one was handed out. -/
def insert (s : Scanner) (position : Nat) (sign : Sign) (line : Nat) : Scanner :=
  if position < s.handed then s.push sign line
  else
    let (before, after) := s.queue.splitAt (position - s.handed)
    { s with queue := before ++ ⟨sign, line + 1⟩ :: after }

def setOpening (s : Scanner) (o : Opening) : Scanner :=
  { s with openings := o :: s.openings.drop 1 }

/-- Token `number` need not wait any more. -/
def release (s : Scanner) (number : Nat) : Scanner :=
  { s with waiting := s.waiting.filter (·.1 != number) }

/-- Gives up the key that may have started, which fails if it had to be one. -/
def dropOpening (s : Scanner) : Option Scanner :=
  let o := s.opening
  if !o.isOpen then some s
  else if o.isRequired then none
  else some ((s.setOpening { o with isOpen := false }).release o.position)

/-- Notes that a key may start at a spot. -/
def noteOpening (s : Scanner) (p : Spot) : Option Scanner :=
  if s.keyAllowed then do
    let isRequired := !s.inFlow && s.indent == p.column
    let s ← s.dropOpening
    let s := (s.setOpening ⟨s.count, true, isRequired, p⟩).release s.count
    return { s with waiting := (s.count, s.level) :: s.waiting }
  else some s

/-- Keys stand on one line and are not too long. -/
def isLive (s : Scanner) (o : Opening) : Bool :=
  o.isOpen && s.here.line ≤ o.spot.line && s.here.index ≤ o.spot.index + 1024

/-- Opens a block at a column further to the right than the innermost one. -/
def openBlock (s : Scanner) (column position : Nat) (sign : Sign) (line : Nat) : Scanner :=
  if !s.inFlow && s.indent < column then
    { s.insert position sign line with indents := column :: s.indents }
  else s

/-- Ends the blocks that stand further to the right than `column`. -/
def closeBlocks (s : Scanner) (column : Int) : Scanner :=
  if s.inFlow then s
  else
    let isRight := fun n : Nat => decide (column < n)
    let ends := (s.indents.takeWhile isRight).map fun _ => ⟨.blockEnd, s.here.line + 1⟩
    { s with queue := s.queue ++ ends, indents := s.indents.dropWhile isRight }

/-- How far to look for a comment. -/
def horizon : Nat := 512

/-- Goes on after blanks if a comment follows them, and to the end of its line. -/
def skipRemark (spots : List Spot) : List Spot :=
  match spots, spots.dropWhile (isBlank ·.char) with
  | first :: _, p :: rest =>
    if p.char == '#' && p.index < first.index + horizon then rest.dropWhile (!isBreak ·.char)
    else spots
  | _, _ => spots

/-- Goes to the end of a comment, and of the comments on lines after it, however they are indented.
The rest then starts with a line end. -/
def skipComments : (fuel : Nat) → List Spot → List Spot
  | 0, spots => spots
  | fuel + 1, spots =>
    let rest := spots.dropWhile (!isBreak ·.char)
    match rest, rest.dropWhile fun p => isBlank p.char || p.char == '\n' with
    | first :: _, p :: after =>
      if p.char == '#' && p.index < first.index + horizon then skipComments fuel (p :: after)
      else rest
    | _, _ => rest

/-- Goes to the next token after blanks, comments and line ends. In blocks a tab must not stand
where a key may start, and a new line may start one. -/
def skipGap (inFlow : Bool) : (fuel : Nat) → (keyAllowed : Bool) → List Spot → Bool × List Spot
  | 0, keyAllowed, spots => (keyAllowed, spots)
  | fuel + 1, keyAllowed, spots =>
    let isMark := fun p : Spot => p.column == 0 && p.char == byteOrderMark
    let spots := if spots.head?.any isMark then spots.drop 1 else spots
    let spots := spots.dropWhile fun p =>
      p.char == ' ' || (p.char == '\t' && (inFlow || !keyAllowed))
    let spots := if spots.head?.any (·.char == '#') then skipComments spots.length spots else spots
    match spots with
    | [] => (keyAllowed, [])
    | p :: rest =>
      if isBreak p.char then skipGap inFlow fuel (keyAllowed || !inFlow) rest
      else (keyAllowed, spots)

/-- A sign of one character. -/
def takeSign (s : Scanner) (sign : Sign) (p : Spot) : Scanner :=
  { s.push sign p.line with spots := skipRemark (s.spots.drop 1) }

def boundary (s : Scanner) (sign : Sign) (p : Spot) : Option Scanner := do
  let s ← (s.closeBlocks (-1)).dropOpening
  return { s.push sign p.line with spots := s.spots.drop 3, keyAllowed := false }

/-- A bracket opens a level on which no key has started, and may start a key itself. -/
def openFlow (s : Scanner) (sign : Sign) (p : Spot) : Option Scanner := do
  let s ← s.noteOpening p
  let openings := ⟨s.count, false, false, p⟩ :: s.openings
  return { s.takeSign sign p with openings, keyAllowed := true }

/-- A bracket closes its level, and the token of the last opening there need not wait. -/
def closeFlow (s : Scanner) (sign : Sign) (p : Spot) : Option Scanner := do
  let s ← s.dropOpening
  let s :=
    if s.inFlow then { s.release s.opening.position with openings := s.openings.drop 1 } else s
  return { s.takeSign sign p with keyAllowed := false }

def comma (s : Scanner) (p : Spot) : Option Scanner := do
  let s ← s.dropOpening
  return { s.takeSign .comma p with keyAllowed := true }

/-- The dash of a list in a block. Between brackets it is passed on, and nothing accepts it. -/
def entry (s : Scanner) (p : Spot) : Option Scanner :=
  if !s.inFlow && !s.keyAllowed then none
  else do
    let s ← (s.openBlock p.column s.count .sequenceStart p.line).dropOpening
    return { s.push .entry p.line with spots := s.spots.drop 1, keyAllowed := true }

/-- The question mark before a key. -/
def key (s : Scanner) (p : Spot) : Option Scanner :=
  if !s.inFlow && !s.keyAllowed then none
  else do
    let s ← (s.openBlock p.column s.count .mappingStart p.line).dropOpening
    return { s.takeSign .key p with keyAllowed := !s.inFlow }

/-- The colon after a key. -/
def value (s : Scanner) (p : Spot) : Option Scanner :=
  let o := s.opening
  let settled := s.setOpening { o with isOpen := false }
  if s.isLive o then
    let s := (settled.insert o.position .key o.spot.line).release o.position
    let s := s.openBlock o.spot.column o.position .mappingStart o.spot.line
    some { s.takeSign .value p with keyAllowed := false }
  else if o.isOpen && o.isRequired then none
  else if !s.inFlow && !s.keyAllowed then none
  else
    let s := settled.openBlock p.column s.count .mappingStart p.line
    some { s.takeSign .value p with keyAllowed := !s.inFlow }

/-- A scalar that starts at a spot. -/
def takeScalar (s : Scanner) (isPlain : Bool) (p : Spot) (x : Scalar) : Scanner :=
  let text := x.text.flatMap Text.ofChar
  { s.push (.scalar isPlain text) p.line with spots := x.rest }

def takePlain (s : Scanner) (p : Spot) : Option Scanner := do
  let s ← s.noteOpening p
  let (x, endsLine) ← plain s.inFlow (s.indent + 1) s.spots
  let rest := if endsLine then x.rest else skipRemark x.rest
  return { s.takeScalar true p { x with rest } with keyAllowed := endsLine }

def takeQuoted (s : Scanner) (p : Spot) : Option Scanner := do
  let s ← s.noteOpening p
  let x ← quoted p.char (s.spots.drop 1)
  let rest := skipRemark x.rest
  return { s.takeScalar false p { x with rest } with keyAllowed := false }

def takeBlockScalar (s : Scanner) (literal : Bool) (p : Spot) : Option Scanner := do
  let s ← s.dropOpening
  let x ← blockScalar literal s.indent (s.spots.drop 1)
  return { s.takeScalar false p x with keyAllowed := true }

/-- Characters that start no plain scalar. -/
def isIndicator (c : Char) : Bool :=
  "-?:,[]\x7b\x7d#&*!|>\"%@`".toList.contains c || c == Char.ofNat 0x27

def startsPlain (inFlow : Bool) (c : Char) (rest : List Spot) : Bool :=
  !(isIndicator c || isBlank c) || (c == '-' && !rest.head?.any (isBlank ·.char)) ||
    (!inFlow && (c == '?' || c == ':') && !atGap rest)

/-- The end of the text closes what is open, and starts a new line if none is. -/
def finish (s : Scanner) : Option Scanner := do
  let line := if s.ending.column = 0 then s.ending.line else s.ending.line + 1
  let s := { s with ending := { s.ending with line, column := 0 } }
  let s ← (s.closeBlocks (-1)).dropOpening
  return { s.push .streamEnd line with keyAllowed := false }

/-- Reads the token at the place of the scanner. -/
def read (s : Scanner) : Option Scanner :=
  match s.spots with
  | [] => s.finish
  | p :: rest =>
    if p.column == 0 && p.char == '%' then none
    else if atBoundary '-' s.spots then s.boundary .documentStart p
    else if atBoundary '.' s.spots then s.boundary .documentEnd p
    else match p.char with
      | '[' => s.openFlow .flowSequenceStart p
      | '\x7b' => s.openFlow .flowMappingStart p
      | ']' => s.closeFlow .flowSequenceEnd p
      | '\x7d' => s.closeFlow .flowMappingEnd p
      | ',' => s.comma p
      | c =>
        if c == '-' && atGap rest then s.entry p
        else if c == '?' && (s.inFlow || atGap rest) then s.key p
        else if c == ':' && (s.inFlow || atGap rest) then s.value p
        else if (c == '|' || c == '>') && !s.inFlow then s.takeBlockScalar (c == '|') p
        else if c == '"' || c == Char.ofNat 0x27 then s.takeQuoted p
        else if startsPlain s.inFlow c rest then s.takePlain p
        else none

/-- Reads the next token, which may be no more than the end of the text again. -/
def fetch (s : Scanner) : Option Scanner :=
  let (keyAllowed, spots) := skipGap s.inFlow (s.spots.length + 1) s.keyAllowed s.spots
  let s := { s with spots, keyAllowed }
  (s.closeBlocks s.here.column).read

/-- The opening that the first token of the queue waits for. -/
def awaited (s : Scanner) : Option Opening := do
  let level ← s.waiting.lookup s.handed
  s.openings.reverse[level]?

/-- Reads until the first token of the queue can be handed out. -/
def supply : (fuel : Nat) → Scanner → Option Scanner
  | 0, _ => none
  | fuel + 1, s =>
    if s.queue.length ≤ 2 then do supply fuel (← s.fetch)
    else match s.awaited.filter (·.isOpen) with
      | none => some s
      | some o =>
        if s.isLive o then do supply fuel (← s.fetch)
        else if o.isRequired then none
        else some s

/-- Hands out tokens up to the end, or up to a place where there is none. -/
def run (lookahead : Nat) : (fuel : Nat) → Scanner → List Token
  | 0, _ => []
  | fuel + 1, s =>
    match s.supply lookahead with
    | none => []
    | some s =>
      match s.queue with
      | [] => []
      | t :: queue =>
        if t.sign == .streamEnd then [t]
        else t :: run lookahead fuel { s with queue, handed := s.handed + 1 }

end Scanner

/-- The tokens of a document. Without a last `streamEnd` they stop where the text is malformed. -/
def tokens (spots : List Spot) : List Token :=
  (Scanner.start spots).run (spots.length + 4) (4 * spots.length + 4)

end Stack6502.Yaml
