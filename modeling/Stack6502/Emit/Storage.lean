import Stack6502.Charset
import Stack6502.Emit.DataLine
import Stack6502.Number.FiveByte
import Stack6502.Program.Basic

/-!
# Storage

Variables become data lines, sixteen values to a line at most. Constants with a scalar value take
no storage; they are symbols of the assembler.
-/
namespace Stack6502

inductive StorageFault
  | floatValue (value : Value) (type : Coded DataType)
  | noPayload (handle : Int64)
  | emptyArray
  | unencodable (str : Text) (charset : Charset) (fault : CharsetFault)
  | tooLong (length : Nat)
  | unsupported (type : Coded DataType)
  | overflow (o : FiveByte.Overflow)
  deriving DecidableEq, Repr

def StorageFault.message : StorageFault → Text
  | .floatValue value type => "float value " ++ value.text ++ " for " ++ type.typeName
  | .noPayload handle => "no heap payload " ++ Text.ofInt handle.toInt
  | .emptyArray => "empty array"
  | .unencodable str charset fault =>
    "encode " ++ str.quoted ++ ": " ++ charset.faultMessage fault
  | .tooLong length => "string too long for length prefix: " ++ Text.ofNat length
  | .unsupported type => "unsupported type: " ++ type.typeName
  | .overflow o => o.message

/-- The character sets of texts for the screen editor and for the screen itself. -/
structure Charsets where
  text : Charset
  screen : Charset
  deriving DecidableEq, Repr

namespace Storage

def perLine : Nat := 16

/-- Consecutive pieces of `n` elements, the last one shorter if need be. -/
def chunks {α : Type} (n : Nat) : List α → List (List α)
  | [] => []
  | x :: xs => (x :: xs.take (n - 1)) :: chunks n (xs.drop (n - 1))
termination_by xs => xs.length
decreasing_by
  simp only [List.length_drop, List.length_cons]
  omega

def directive : DataType → Text
  | .byte | .arrayB => ".char"
  | .uword | .arrayUW => ".word"
  | .word | .arrayW => ".sint"
  | _ => ".byte"

def hexByte (b : UInt8) : Text := hex (Int64.ofNat b.toNat)

/-- The five bytes of a float with its decimal text beside them. -/
def floatLine (label : Text) (x : Double) : Except FiveByte.Overflow DataLine := do
  let packed ← FiveByte.encode x
  return .values label ".byte" (packed.bytes.map hexByte) (some ("float " ++ x.text .value))

/-- A short list stands beside its label, a longer one on lines of its own. -/
def listLines (label directive : Text) (args : List Text) : List DataLine :=
  if args.length ≤ perLine then [.values label directive args none]
  else .heading label none :: (chunks perLine args).map (.values [] directive · none)

/-- Lines of `.byte` after a label. -/
def byteLines (bytes : List UInt8) : List DataLine :=
  (chunks perLine (bytes.map hexByte)).map (.values [] ".byte" · none)

/-- Whether strings of a type are in screen codes rather than in text codes. -/
def isForScreen : DataType → Bool
  | .strS | .strPS => true
  | _ => false

/-- Whether strings of a type start with their length rather than end with a zero. -/
def isPrefixed : DataType → Bool
  | .strP | .strPS => true
  | _ => false

def stringBytes (sets : Charsets) (type : DataType) (str : Text) :
    Except StorageFault (List UInt8) :=
  let charset := if isForScreen type then sets.screen else sets.text
  match charset.encode str with
  | .error fault => .error (.unencodable str charset fault)
  | .ok bytes =>
    if isPrefixed type then
      if 255 < bytes.length then .error (.tooLong bytes.length)
      else .ok (UInt8.ofNat bytes.length :: bytes)
    else .ok (bytes ++ [0])

/-- A float scalar, zero if it has no value. A zero takes space only. -/
def floatScalar (name : Text) (x : Double) : Except StorageFault (List DataLine) :=
  if x.isZero then .ok [.values name ".fill" ["5"] (some "float")]
  else match floatLine name x with
    | .error o => .error (.overflow o)
    | .ok line => .ok [line]

def floatArray (name : Text) (xs : List Double) : Except StorageFault (List DataLine) :=
  if xs.isEmpty then .error .emptyArray
  else match xs.mapM (floatLine []) with
    | .error o => .error (.overflow o)
    | .ok lines => .ok (.heading name none :: lines)

def intArray (name : Text) (type : DataType) (vs : List Int64) :
    Except StorageFault (List DataLine) :=
  if vs.isEmpty then .error .emptyArray
  else .ok (listLines name (directive type) (vs.map hex))

def string (sets : Charsets) (name : Text) (type : DataType) (str : Text) :
    Except StorageFault (List DataLine) := do
  let bytes ← stringBytes sets type str
  return .heading name (some (type.name ++ " " ++ str.quoted)) :: byteLines bytes

/-- Handle zero is no payload even if there is one under it. -/
def payload (heap : Heap) (handle : Int64) : Except StorageFault Payload :=
  match heap.find? handle with
  | none => .error (.noPayload handle)
  | some p => if handle = 0 then .error (.noPayload handle) else .ok p

end Storage

open Storage

/-- The lines that reserve and fill a variable. -/
def Decl.storage (sets : Charsets) (heap : Heap) (d : Decl) :
    Except StorageFault (List DataLine) :=
  match d.type with
  | .stray _ => do
    let _ ← payload heap d.heap
    throw (.unsupported d.type)
  | .known type =>
    match type with
    | .ubyte | .byte | .uword | .word =>
      match d.value.getD (.int 0) with
      | .float x => .error (.floatValue (.float x) d.type)
      | .int v => .ok [.values d.name (directive type) [hex v] none]
    | .float => floatScalar d.name (d.value.getD (.int 0)).toDouble
    | .arrayF => do floatArray d.name (← payload heap d.heap).floats
    | .arrayUB | .arrayB | .arrayUW | .arrayW => do
      intArray d.name type (← payload heap d.heap).array
    | .str | .strP | .strS | .strPS => do
      string sets d.name type (← payload heap d.heap).str

/-- A scalar constant, which is a symbol and takes no storage. -/
def Decl.isSymbol (d : Decl) : Bool :=
  d.isConst && d.value.isSome && !d.type.isArray && !d.type.isString

/-- Declarations that take storage, in the order of their types. -/
def Block.stored (b : Block) : List Decl :=
  (b.decls.filter (!·.isSymbol)).mergeSort fun d e => d.type.typeNumber ≤ e.type.typeNumber

end Stack6502
