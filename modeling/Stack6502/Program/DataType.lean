import Stack6502.Program.Coded
import Stack6502.Text.Case
import Stack6502.Text.Quoted

/-!
# Data types and launchers

Types of declarations in the order in which storage is laid out, and the ways a program starts.
-/
namespace Stack6502

inductive DataType
  | ubyte | byte | uword | word | float
  | str | strP | strS | strPS
  | arrayUB | arrayB | arrayUW | arrayW | arrayF
  deriving DecidableEq, Repr, Inhabited

namespace DataType

def all : List DataType :=
  [.ubyte, .byte, .uword, .word, .float, .str, .strP, .strS, .strPS,
   .arrayUB, .arrayB, .arrayUW, .arrayW, .arrayF]

def number (t : DataType) : Nat := t.ctorIdx

def name : DataType → String
  | .ubyte => "ubyte"
  | .byte => "byte"
  | .uword => "uword"
  | .word => "word"
  | .float => "float"
  | .str => "str"
  | .strP => "str_p"
  | .strS => "str_s"
  | .strPS => "str_ps"
  | .arrayUB => "ubyte[]"
  | .arrayB => "byte[]"
  | .arrayUW => "uword[]"
  | .arrayW => "word[]"
  | .arrayF => "float[]"

def isSigned : DataType → Bool
  | .byte | .word | .float | .arrayB | .arrayW | .arrayF => true
  | _ => false

def isArray : DataType → Bool
  | .arrayUB | .arrayB | .arrayUW | .arrayW | .arrayF => true
  | _ => false

def isString : DataType → Bool
  | .str | .strP | .strS | .strPS => true
  | _ => false

/-- Bytes of a value in a register pair or on the evaluation stack. Strings and arrays are passed
by address. -/
def size : DataType → Nat
  | .ubyte | .byte => 1
  | .float => 5
  | _ => 2

/-- The type of the elements of a string or an array. -/
def elem : DataType → DataType
  | .arrayUB | .str | .strP | .strS | .strPS => .ubyte
  | .arrayB => .byte
  | .arrayUW => .uword
  | .arrayW => .word
  | .arrayF => .float
  | t => t

/-- A type by its name in any case. -/
def parse? (t : Text) : Option DataType :=
  let name := t.lower
  all.find? fun d => Text.ofString d.name == name

/-- The fault is shown with the name in lower case. -/
def unknownMessage (t : Text) : Text := "unknown data type: " ++ t.lower.quoted

end DataType

namespace Coded

def ofTypeNumber (n : Int) : Coded DataType := ofIndex DataType.all n

def typeNumber : Coded DataType → Int
  | .known t => t.number
  | .stray n => n

def typeName : Coded DataType → Text
  | .known t => t.name
  | .stray _ => "type(?)"

def size : Coded DataType → Nat
  | .known t => t.size
  | .stray _ => 2

def isSigned : Coded DataType → Bool
  | .known t => t.isSigned
  | .stray _ => false

def isArray : Coded DataType → Bool
  | .known t => t.isArray
  | .stray _ => false

def isString : Coded DataType → Bool
  | .known t => t.isString
  | .stray _ => false

def elem : Coded DataType → Coded DataType
  | .known t => .known t.elem
  | .stray n => .stray n

end Coded

/-- How a program is started. -/
inductive Launcher
  | basic | prg | raw
  deriving DecidableEq, Repr, Inhabited

namespace Launcher

def all : List Launcher := [.basic, .prg, .raw]

def number (l : Launcher) : Nat := l.ctorIdx

def name : Launcher → String
  | .basic => "basic"
  | .prg => "prg"
  | .raw => "raw"

/-- A launcher by its name in any case. -/
def parse? (t : Text) : Option Launcher :=
  let name := t.lower
  all.find? fun l => Text.ofString l.name == name

def unknownMessage (t : Text) : Text := "unknown launcher: " ++ t.quoted

end Launcher

namespace Coded

def ofLauncherNumber (n : Int) : Coded Launcher := ofIndex Launcher.all n

def launcherName : Coded Launcher → Text
  | .known l => l.name
  | .stray _ => "launcher(?)"

end Coded

end Stack6502
