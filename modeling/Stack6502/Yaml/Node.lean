import Stack6502.Yaml.Token

/-!
# Nodes

A document is a tree of scalars, sequences and mappings, each with the line on which it starts.
Only the first document of a text is read.
-/
namespace Stack6502.Yaml

inductive Node
  | scalar (line : Nat) (isPlain : Bool) (text : Text)
  | sequence (line : Nat) (items : List Node)
  | mapping (line : Nat) (pairs : List (Node × Node))
  deriving Repr, Inhabited

namespace Node

def line : Node → Nat
  | .scalar line _ _ | .sequence line _ | .mapping line _ => line

/-- What stands where nothing was written. -/
def nothing (line : Nat) : Node := .scalar line true []

/-- Whether one of the signs given comes next. -/
def isNext (ts : List Token) (signs : List Sign) : Bool :=
  match ts with
  | [] => false
  | t :: _ => signs.contains t.sign

/-- Items after the first follow a comma, which may also stand before the end. -/
def readComma (isFirst : Bool) (last : Sign) : List Token → Option (List Token)
  | [] => none
  | t :: rest =>
    if isFirst || t.sign == last then some (t :: rest)
    else if t.sign == .comma then some rest
    else none

mutual

/-- A node; block collections only where they are allowed, and a list that is not indented only as
the value of a key. -/
def read (fuel : Nat) (inBlock inPair : Bool) (ts : List Token) : Option (Node × List Token) :=
  match fuel, ts with
  | 0, _ | _, [] => none
  | fuel + 1, t :: rest =>
    match t.sign with
    | .scalar isPlain text => some (.scalar t.line isPlain text, rest)
    | .entry =>
      if inPair then do
        let (items, rest) ← readBare fuel ts
        some (.sequence t.line items, rest)
      else none
    | .flowSequenceStart => do
      let (items, rest) ← readFlowItems fuel true rest
      some (.sequence t.line items, rest)
    | .flowMappingStart => do
      let (pairs, rest) ← readFlowPairs fuel true rest
      some (.mapping t.line pairs, rest)
    | .sequenceStart =>
      if inBlock then do
        let (items, rest) ← readItems fuel rest
        some (.sequence t.line items, rest)
      else none
    | .mappingStart =>
      if inBlock then do
        let (pairs, rest) ← readPairs fuel rest
        some (.mapping t.line pairs, rest)
      else none
    | _ => none

/-- A node, or nothing if one of the `ends` comes next. -/
def readUnless (fuel : Nat) (ends : List Sign) (inBlock inPair : Bool) (line : Nat)
    (ts : List Token) : Option (Node × List Token) :=
  match fuel with
  | 0 => none
  | fuel + 1 =>
    if isNext ts ends then some (nothing line, ts) else read fuel inBlock inPair ts

/-- The items of an indented list up to its end. -/
def readItems (fuel : Nat) (ts : List Token) :
    Option (List Node × List Token) :=
  match fuel, ts with
  | 0, _ | _, [] => none
  | fuel + 1, t :: rest =>
    match t.sign with
    | .entry => do
      let (item, rest) ← readUnless fuel [.entry, .blockEnd] true false t.line rest
      let (items, rest) ← readItems fuel rest
      some (item :: items, rest)
    | .blockEnd => some ([], rest)
    | _ => none

/-- The items of a list that is not indented. It ends where no item follows. -/
def readBare (fuel : Nat) (ts : List Token) :
    Option (List Node × List Token) :=
  match fuel, ts with
  | 0, _ | _, [] => none
  | fuel + 1, t :: rest =>
    match t.sign with
    | .entry => do
      let (item, rest) ← readUnless fuel [.entry, .key, .value, .blockEnd] true false t.line rest
      let (items, rest) ← readBare fuel rest
      some (item :: items, rest)
    | _ => some ([], ts)

/-- The keys and values of a block mapping up to its end. -/
def readPairs (fuel : Nat) (ts : List Token) : Option (List (Node × Node) × List Token) :=
  match fuel, ts with
  | 0, _ | _, [] => none
  | fuel + 1, t :: rest =>
    match t.sign with
    | .key => do
      let (key, rest) ← readUnless fuel [.key, .value, .blockEnd] true true t.line rest
      let (value, rest) ← readValue fuel [.key, .value, .blockEnd] true t.line rest
      let (pairs, rest) ← readPairs fuel rest
      some ((key, value) :: pairs, rest)
    | .blockEnd => some ([], rest)
    | _ => none

/-- What follows a key: a value after its sign, or nothing. -/
def readValue (fuel : Nat) (ends : List Sign) (inBlock : Bool) (line : Nat) (ts : List Token) :
    Option (Node × List Token) :=
  match fuel, ts with
  | 0, _ | _, [] => none
  | fuel + 1, t :: rest =>
    if t.sign == .value then readUnless fuel ends inBlock inBlock line rest
    else some (nothing line, ts)

/-- The items of a list between brackets. A pair on its own is a mapping. -/
def readFlowItems (fuel : Nat) (isFirst : Bool) (ts : List Token) :
    Option (List Node × List Token) :=
  match fuel with
  | 0 => none
  | fuel + 1 => do
    let ts ← readComma isFirst .flowSequenceEnd ts
    match ts with
    | [] => none
    | t :: rest =>
      if t.sign == .flowSequenceEnd then some ([], rest)
      else do
        let (item, rest) ←
          if t.sign == .key then readFlowPair fuel t.line rest else read fuel false false ts
        let (items, rest) ← readFlowItems fuel false rest
        some (item :: items, rest)

def readFlowPair (fuel : Nat) (line : Nat) (ts : List Token) : Option (Node × List Token) :=
  match fuel with
  | 0 => none
  | fuel + 1 => do
    let ends := [.value, .comma, .flowSequenceEnd]
    let (key, rest) ←
      if isNext ts ends then some (nothing line, ts.drop 1) else read fuel false false ts
    let (value, rest) ← readValue fuel [.comma, .flowSequenceEnd] false line rest
    some (.mapping line [(key, value)], rest)

/-- The keys and values between braces. A key may stand alone. -/
def readFlowPairs (fuel : Nat) (isFirst : Bool) (ts : List Token) :
    Option (List (Node × Node) × List Token) :=
  match fuel with
  | 0 => none
  | fuel + 1 => do
    let ts ← readComma isFirst .flowMappingEnd ts
    match ts with
    | [] => none
    | t :: rest =>
      if t.sign == .flowMappingEnd then some ([], rest)
      else if t.sign == .key then do
        let (key, rest) ←
          readUnless fuel [.value, .comma, .flowMappingEnd] false false t.line rest
        let (value, rest) ← readValue fuel [.comma, .flowMappingEnd] false t.line rest
        let (pairs, rest) ← readFlowPairs fuel false rest
        some ((key, value) :: pairs, rest)
      else do
        let (key, rest) ← read fuel false false ts
        let (pairs, rest) ← readFlowPairs fuel false rest
        some ((key, nothing t.line) :: pairs, rest)

end

/-- The root of the first document, if the text has one. Something must follow it, if only the end
of the text. -/
def ofTokens (ts : List Token) : Option (Option Node) :=
  let fuel := 4 * ts.length + 4
  match ts with
  | [] => none
  | t :: rest =>
    match t.sign with
    | .streamEnd => some none
    | .documentStart => do
      let ends := [.documentStart, .documentEnd, .streamEnd]
      let (root, rest) ← readUnless fuel ends true false t.line rest
      if rest.isEmpty then none else some (some root)
    | _ => do
      let (root, rest) ← read fuel true false ts
      if rest.isEmpty then none else some (some root)

/-- The first document of a text, `none` if the text is malformed. -/
def ofText (t : Text) : Option (Option Node) := do ofTokens (tokens (← spots? t))

end Node

end Stack6502.Yaml
