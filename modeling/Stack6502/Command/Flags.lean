import Stack6502.Number.IntLiteral
import Stack6502.Text.Case
import Stack6502.Text.Quoted

/-!
# Flags

Flags start with one dash or two and may stand anywhere among the arguments. The value of a flag is
the next argument, or follows an equals sign or a space in the same one; a switch needs none. A
command also takes the flags of the command above it.
-/
namespace Stack6502

/-- What a flag holds. One that asks for help holds nothing. -/
inductive FlagValue
  | text (t : Text)
  | int (v : Int64)
  | switch (b : Bool)
  | help
  deriving DecidableEq, Repr

namespace FlagValue

def render : FlagValue → Text
  | .text t => t
  | .int v => Text.ofInt v.toInt
  | .switch b => if b then "true" else "false"
  | .help => []

def switchWord? (t : Text) : Option Bool :=
  let isOneOf := fun words : List String => words.any (Text.ofString · == t.lower)
  if isOneOf ["", "1", "t", "true", "y", "yes"] then some true
  else if isOneOf ["0", "f", "false", "n", "no"] then some false
  else none

end FlagValue

/-- A flag by its name and perhaps a letter, with its value. -/
structure Flag where
  name : String
  letter : Option String
  /-- How help shows that it takes a value. -/
  hint : String
  description : String
  value : FlagValue
  deriving DecidableEq, Repr

/-- Why arguments are refused. The argument at fault is shown whole. -/
inductive FlagFault
  | unknown (arg : Text)
  | noValue (arg : Text)
  | badInt (arg value : Text) (fault : IntFault)
  | badSwitch (arg : Text)
  | unexpected (arg : Text)
  deriving DecidableEq, Repr

def FlagFault.message : FlagFault → Text
  | .unknown arg => "parse flag: " ++ arg ++ ": no such flag"
  | .noValue arg => "parse flag: " ++ arg ++ ": flag value is required"
  | .badInt arg value fault =>
    "parse flag: " ++ arg ++ ": strconv.ParseInt: parsing " ++ value.quoted ++ ": "
      ++ (match fault with
        | .malformed => "invalid syntax"
        | .outOfRange => "value out of range")
  | .badSwitch arg => "parse flag: " ++ arg ++ ": not a bool value"
  | .unexpected arg => "no args expected, got " ++ arg

namespace Flag

def dash : UInt8 := Text.byte '-'

/-- One dash and two dashes alone are no flags. -/
def isFlag (arg : Text) : Bool := arg.head? == some dash && arg != [dash] && arg != [dash, dash]

/-- The name that an argument gives, and its value after an equals sign or a space. -/
def split (arg : Text) : Text × Option Text :=
  let isSign := fun b => b == Text.byte '=' || b == Text.space
  let named := arg.drop (if arg.take 2 == [dash, dash] then 2 else 1)
  match named.dropWhile (!isSign ·) with
  | [] => (named, none)
  | _ :: given => (named.takeWhile (!isSign ·), some given)

def isNamed (f : Flag) (name : Text) : Bool :=
  Text.ofString f.name == name || f.letter.any (Text.ofString · == name)

/-- The value that a flag takes from a text, which is of the kind of the value it has. -/
def read (f : Flag) (arg t : Text) : Except FlagFault FlagValue :=
  match f.value with
  | .text _ => .ok (.text t)
  | .int _ =>
    match IntLiteral.readInt (some 10) t with
    | .ok v => .ok (.int v)
    | .error fault => .error (.badInt arg t fault)
  | .switch _ =>
    match FlagValue.switchWord? t with
    | some b => .ok (.switch b)
    | none => .error (.badSwitch arg)
  | .help => .ok .help

/-- The value of a flag, given in its own argument or in the next one. The result tells whether the
next one was taken. -/
def take (f : Flag) (arg : Text) (given next : Option Text) :
    Except FlagFault (FlagValue × Bool) :=
  match given, f.value, next with
  | some t, _, _ => do return (← f.read arg t, false)
  | none, .switch _, _ => .ok (.switch true, false)
  | none, .help, _ => .ok (.help, false)
  | none, _, some t => do return (← f.read arg t, true)
  | none, _, none => .error (.noValue arg)

def assign (name : Text) (v : FlagValue) (flags : List Flag) : List Flag :=
  flags.map fun f => if f.isNamed name then { f with value := v } else f

end Flag

/-- The flags of a command, those of the command above it, and its other arguments. -/
structure Arguments where
  own : List Flag
  inherited : List Flag
  rest : List Text
  deriving DecidableEq, Repr

/-- What arguments ask for: help, with the flags as they are by then, or that the command acts. -/
inductive Request
  | help (a : Arguments)
  | act (a : Arguments)
  deriving DecidableEq, Repr

namespace Arguments

def value? (a : Arguments) (name : String) : Option FlagValue :=
  (a.own.find? (·.name == name)).map (·.value)

def text (a : Arguments) (name : String) : Text :=
  match a.value? name with
  | some (.text t) => t
  | _ => []

def int (a : Arguments) (name : String) : Int64 :=
  match a.value? name with
  | some (.int v) => v
  | _ => 0

def switch (a : Arguments) (name : String) : Bool :=
  match a.value? name with
  | some (.switch b) => b
  | _ => false

/-- A command looks for a flag among its own first. -/
def flag? (a : Arguments) (name : Text) : Option Flag :=
  (a.own ++ a.inherited).find? (·.isNamed name)

def assign (a : Arguments) (name : Text) (v : FlagValue) : Arguments :=
  if a.own.any (·.isNamed name) then { a with own := Flag.assign name v a.own }
  else { a with inherited := Flag.assign name v a.inherited }

/-- One flag, with the argument after it if there is one. The result is nothing if the flag asks
for help, and else tells whether that argument was its value. -/
def takeFlag (a : Arguments) (arg : Text) (next : Option Text) :
    Except FlagFault (Option (Arguments × Bool)) :=
  let (name, given) := Flag.split arg
  match a.flag? name with
  | none => .error (.unknown arg)
  | some f => do
    let (v, isTaken) ← f.take arg given next
    return if v = .help then none else some (a.assign name v, isTaken)

/-- Sorts arguments into flags and others, which may be refused. After two dashes alone nothing is
a flag. -/
def parse (takesArgs : Bool) : (skip : Bool) → List Text → Arguments → Except FlagFault Request
  | _, [], a => .ok (.act a)
  | true, _ :: args, a => parse takesArgs false args a
  | false, arg :: args, a =>
    if Flag.isFlag arg then do
      match ← a.takeFlag arg args.head? with
      | none => return .help a
      | some (a, isTaken) => parse takesArgs isTaken args a
    else if takesArgs then
      if arg = [Flag.dash, Flag.dash] then .ok (.act { a with rest := a.rest ++ args })
      else parse takesArgs false args { a with rest := a.rest ++ [arg] }
    else .error (.unexpected arg)

end Arguments

end Stack6502
