import Stack6502.Lower.Move
import Stack6502.Lower.Pattern

/-!
# Assignments

The rules: every way to read a value joined to every way to write it, so that the value never
passes over the evaluation stack. Bytes come first, then words, then floats, and for each place
written all sources in order.
-/
namespace Stack6502.Assignment

structure ByteSource where
  name : String
  seq : List Opcode
  alt : List Opcode
  value : List Instr → Reading ByteValue

structure ByteDest where
  name : String
  seq : List Opcode
  alt : List Opcode
  store : ByteValue → List Instr → Reading Code

structure WordSource where
  name : String
  seq : List Opcode
  alt : List Opcode
  /-- Code that puts the word into a place. -/
  store : List Instr → WordValue → Reading Code

structure WordDest where
  name : String
  seq : List Opcode
  place : List Instr → Reading WordValue

structure FloatSource where
  name : String
  seq : List Opcode
  place : List Instr → FloatPool → Except Defect (Option Place) × FloatPool

structure FloatDest where
  name : String
  seq : List Opcode
  place : List Instr → Reading Place

/-- A byte at an address expression. -/
def atPlace (p : Place) : ByteValue := .loc (.direct p) [] false

/-- A constant, a variable or register, a memory address. -/
def constByte (x : Instr) : Reading ByteValue :=
  return .loc (Asm.lowByte (← x.integer)) [] false

def varByte (x : Instr) : Reading ByteValue := .ofOption (ByteValue.ofName? x.sym)

def memByte (x : Instr) : Reading ByteValue := return atPlace (.address (← x.integer))

/-- An element of an array of bytes at a constant index. -/
def elemByte (i array : Instr) : Reading ByteValue :=
  return atPlace (.elem array.sym (← i.integer) 1)

/-- An element of an array of bytes after `setup` has put the index into Y. -/
def byY (array : Instr) (setup : List Line) : ByteValue := .loc (.byY (.name array.sym)) setup true

def byteSources : List ByteSource :=
  [{ name := "const", seq := [.pushByte], alt := []
     value := fun
       | [x] => constByte x
       | _ => .fail .shortWindow },
   { name := "var", seq := [.pushVarByte], alt := []
     value := fun
       | [x] => varByte x
       | _ => .fail .shortWindow },
   { name := "mem", seq := [.pushMemB], alt := [.pushMemUB]
     value := fun
       | [x] => memByte x
       | _ => .fail .shortWindow },
   { name := "array[const]", seq := [.pushByte, .readIndexedVarByte], alt := []
     value := fun
       | [i, array] => elemByte i array
       | _ => .fail .shortWindow },
   { name := "array[var]", seq := [.pushVarByte, .readIndexedVarByte], alt := []
     value := fun
       | [i, array] =>
         .ofOption (((Home.ofName i.sym).indexY (.direct (.name i.sym))).map (byY array))
       | _ => .fail .shortWindow },
   { name := "array[mem]", seq := [.pushMemB, .readIndexedVarByte]
     alt := [.pushMemUB, .readIndexedVarByte]
     value := fun
       | [i, array] => return byY array [Asm.ldy (.direct (.address (← i.integer)))]
       | _ => .fail .shortWindow }]

def byteDests : List ByteDest :=
  [{ name := "var", seq := [.popVarByte], alt := []
     store := fun v w => match w with
       | [x] =>
         match Home.ofName x.sym with
         | .reg r => return v.toReg r
         | .pair _ => .ofOption none
         | .var | .mem => return v.toPlace (.direct (.name x.sym))
       | _ => .fail .shortWindow },
   { name := "mem", seq := [.popMemByte], alt := []
     store := fun v w => match w with
       | [x] => return v.toPlace (.direct (.address (← x.integer)))
       | _ => .fail .shortWindow },
   { name := "array[const]", seq := [.pushByte, .writeIndexedVarByte], alt := []
     store := fun v w => match w with
       | [i, array] => return v.toPlace (.direct (.elem array.sym (← i.integer) 1))
       | _ => .fail .shortWindow },
   { name := "array[var]", seq := [.pushVarByte, .writeIndexedVarByte], alt := []
     store := fun v w => match w with
       | [i, array] =>
         .ofOption (v.toIndexed array.sym (.direct (.name i.sym)) (.ofName i.sym))
       | _ => .fail .shortWindow },
   { name := "array[mem]", seq := [.pushMemB, .writeIndexedVarByte]
     alt := [.pushMemUB, .writeIndexedVarByte]
     store := fun v w => match w with
       | [i, array] => do
         .ofOption (v.toIndexed array.sym (.direct (.address (← i.integer))) .mem)
       | _ => .fail .shortWindow }]

/-- A byte widened with zeros. -/
def zeroExtended (v : Reading ByteValue) (d : WordValue) : Reading Code :=
  return WordValue.zeroExtend (← v) d

/-- A byte widened with its sign. -/
def signExtended (v : Reading ByteValue) (d : WordValue) : Reading Code :=
  return WordValue.signExtend (← v) d

def wordSources : List WordSource :=
  [{ name := "const", seq := [.pushWord], alt := []
     store := fun w d => match w with
       | [x] => do
         let v ← x.integer
         return (WordValue.cell ⟨Asm.lowByte v, Asm.highByte v⟩).moveTo d
       | _ => .fail .shortWindow },
   { name := "var", seq := [.pushVarWord], alt := []
     store := fun w d => match w with
       | [x] => .ofOption ((WordValue.ofName? x.sym).map (·.moveTo d))
       | _ => .fail .shortWindow },
   { name := "mem", seq := [.pushMemW], alt := [.pushMemUW]
     store := fun w d => match w with
       | [x] => return (WordValue.cell (.memory (← x.integer))).moveTo d
       | _ => .fail .shortWindow },
   { name := "array[const]", seq := [.pushByte, .readIndexedVarWord], alt := []
     store := fun w d => match w with
       | [i, array] => return (WordValue.cell (.element array.sym (← i.integer))).moveTo d
       | _ => .fail .shortWindow },
   { name := "ubyte const", seq := [.pushByte, .ub2uword], alt := []
     store := fun w d => match w with
       | [x, _] => zeroExtended (constByte x) d
       | _ => .fail .shortWindow },
   { name := "ubyte var", seq := [.pushVarByte, .ub2uword], alt := []
     store := fun w d => match w with
       | [x, _] => zeroExtended (varByte x) d
       | _ => .fail .shortWindow },
   { name := "ubyte mem", seq := [.pushMemUB, .ub2uword], alt := []
     store := fun w d => match w with
       | [x, _] => zeroExtended (memByte x) d
       | _ => .fail .shortWindow },
   { name := "ubyte array[const]", seq := [.pushByte, .readIndexedVarByte, .ub2uword], alt := []
     store := fun w d => match w with
       | [i, array, _] => zeroExtended (elemByte i array) d
       | _ => .fail .shortWindow },
   { name := "byte var", seq := [.pushVarByte, .b2word], alt := []
     store := fun w d => match w with
       | [x, _] => signExtended (varByte x) d
       | _ => .fail .shortWindow },
   { name := "byte mem", seq := [.pushMemB, .b2word], alt := []
     store := fun w d => match w with
       | [x, _] => signExtended (memByte x) d
       | _ => .fail .shortWindow },
   { name := "byte array[const]", seq := [.pushByte, .readIndexedVarByte, .b2word], alt := []
     store := fun w d => match w with
       | [i, array, _] => signExtended (elemByte i array) d
       | _ => .fail .shortWindow }]

def wordDests : List WordDest :=
  [{ name := "var", seq := [.popVarWord]
     place := fun
       | [x] => .ofOption (WordValue.ofName? x.sym)
       | _ => .fail .shortWindow },
   { name := "mem", seq := [.popMemWord]
     place := fun
       | [x] => return .cell (.memory (← x.integer))
       | _ => .fail .shortWindow },
   { name := "array[const]", seq := [.pushByte, .writeIndexedVarWord]
     place := fun
       | [i, array] => return .cell (.element array.sym (← i.integer))
       | _ => .fail .shortWindow }]

/-- An element of an array of floats at a constant index. -/
def elemFloat (i array : Instr) : Reading Place := return .elem array.sym (← i.integer) 5

def floatSources : List FloatSource :=
  [{ name := "const", seq := [.pushFloat]
     place := fun w pool => match w with
       | [x] =>
         match x.arg with
         | some v =>
           let (label, pool) := pool.add v.toDouble
           (.ok (label.map .name), pool)
         | none => (.ok none, pool)
       | _ => (.error .shortWindow, pool) },
   { name := "var", seq := [.pushVarFloat]
     place := fun w pool => match w with
       | [x] => (.ok (if x.sym.isEmpty then none else some (.name x.sym)), pool)
       | _ => (.error .shortWindow, pool) },
   { name := "mem", seq := [.pushMemFloat]
     place := fun w pool => match w with
       | [x] => ((Place.address <$> x.integer).run, pool)
       | _ => (.error .shortWindow, pool) },
   { name := "array[const]", seq := [.pushByte, .readIndexedVarFloat]
     place := fun w pool => match w with
       | [i, array] => ((elemFloat i array).run, pool)
       | _ => (.error .shortWindow, pool) }]

def floatDests : List FloatDest :=
  [{ name := "var", seq := [.popVarFloat]
     place := fun
       | [x] => return .name x.sym
       | _ => .fail .shortWindow },
   { name := "mem", seq := [.popMemFloat]
     place := fun
       | [x] => Place.address <$> x.integer
       | _ => .fail .shortWindow },
   { name := "array[const]", seq := [.pushByte, .writeIndexedVarFloat]
     place := fun
       | [i, array] => elemFloat i array
       | _ => .fail .shortWindow }]

/-- An alternative for one half of a rule comes with the usual form of the other half. -/
def alternative (source dest sourceAlt destAlt : List Opcode) : List Opcode :=
  if sourceAlt.isEmpty && destAlt.isEmpty then []
  else (if sourceAlt.isEmpty then source else sourceAlt) ++
    (if destAlt.isEmpty then dest else destAlt)

def ruleName (kind dest source : String) : Text := kind ++ " " ++ dest ++ " = " ++ source

def byteRule (d : ByteDest) (s : ByteSource) : Rule where
  name := ruleName "byte" d.name s.name
  seq := s.seq ++ d.seq
  alt := alternative s.seq d.seq s.alt d.alt
  lowering := some <| .reading fun w => do
    let v ← s.value (w.take s.seq.length)
    d.store v (w.drop s.seq.length)

def wordRule (d : WordDest) (s : WordSource) : Rule where
  name := ruleName "word" d.name s.name
  seq := s.seq ++ d.seq
  alt := alternative s.seq d.seq s.alt []
  lowering := some <| .reading fun w => do
    let place ← d.place (w.drop s.seq.length)
    s.store (w.take s.seq.length) place

def floatRule (d : FloatDest) (s : FloatSource) : Rule where
  name := ruleName "float" d.name s.name
  seq := s.seq ++ d.seq
  alt := []
  lowering := some fun w pool =>
    let (source, pool) := s.place (w.take s.seq.length) pool
    let code : Reading Code := do
      return copyFloat (← OptionT.mk source) (← d.place (w.drop s.seq.length))
    (code.run, pool)

def rules : List Rule :=
  byteDests.flatMap (fun d => byteSources.map (byteRule d)) ++
    wordDests.flatMap (fun d => wordSources.map (wordRule d)) ++
    floatDests.flatMap (fun d => floatSources.map (floatRule d))

end Stack6502.Assignment
