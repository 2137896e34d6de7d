import Stack6502.Program.Value

/-!
# Assembly lines

The lines of assembly that instructions are lowered to, as data, and their text. Lines come in
groups: in the text of a piece of code the first line of a group is indented by one space, the
others by two, labels by none, and bars stand between lines.
-/
namespace Stack6502

inductive Mnemonic
  | adc | and | asl | bcc | bcs | beq | bmi | bne | bpl | brk | bvc | bvs | clc | cli | cmp | cpx
  | dec | dex | dey | eor | inc | inx | iny | jmp | jsr | lda | ldx | ldy | lsr | nop | ora | pha
  | php | pla | plp | rol | ror | rts | sbc | sec | sei | sta | stx | sty | tax | tay | txa | tya
  deriving DecidableEq, Repr

def Mnemonic.name : Mnemonic → String
  | .adc => "adc" | .and => "and" | .asl => "asl" | .bcc => "bcc" | .bcs => "bcs"
  | .beq => "beq" | .bmi => "bmi" | .bne => "bne" | .bpl => "bpl" | .brk => "brk"
  | .bvc => "bvc" | .bvs => "bvs" | .clc => "clc" | .cli => "cli" | .cmp => "cmp"
  | .cpx => "cpx" | .dec => "dec" | .dex => "dex" | .dey => "dey" | .eor => "eor"
  | .inc => "inc" | .inx => "inx" | .iny => "iny" | .jmp => "jmp" | .jsr => "jsr"
  | .lda => "lda" | .ldx => "ldx" | .ldy => "ldy" | .lsr => "lsr" | .nop => "nop"
  | .ora => "ora" | .pha => "pha" | .php => "php" | .pla => "pla" | .plp => "plp"
  | .rol => "rol" | .ror => "ror" | .rts => "rts" | .sbc => "sbc" | .sec => "sec"
  | .sei => "sei" | .sta => "sta" | .stx => "stx" | .sty => "sty" | .tax => "tax"
  | .tay => "tay" | .txa => "txa" | .tya => "tya"

/-- An address expression. -/
inductive Place
  | name (symbol : Text)
  | address (a : Int64)
  | plus (p : Place) (offset : Int64)
  deriving DecidableEq, Repr

namespace Place

def text : Place → Text
  | .name symbol => symbol
  | .address a => hex a
  | .plus p offset => p.text ++ "+" ++ Text.ofInt offset.toInt

/-- Element `i` of an array with elements of `size` bytes. -/
def elem (array : Text) (i size : Int64) : Place :=
  let offset := i * size
  if offset = 0 then .name array else .plus (.name array) offset

/-- The text of an expression whose low or high byte is taken. -/
def byteText (p : Place) : Text :=
  let t := p.text
  if t.contains (Text.byte '+') then "(" ++ t ++ ")" else t

end Place

inductive Operand
  | none
  | accumulator
  /-- A constant in hexadecimal. -/
  | imm (n : UInt8)
  /-- A constant in decimal. -/
  | digit (n : UInt8)
  | lowOf (p : Place)
  | highOf (p : Place)
  | direct (p : Place)
  | byX (p : Place)
  | byY (p : Place)
  /-- The `n`-th `+` label from here. -/
  | forward (n : Nat)
  deriving DecidableEq, Repr

def Operand.text : Operand → Text
  | .none => []
  | .accumulator => "a"
  | .imm n => "#" ++ hex (Int64.ofNat n.toNat)
  | .digit n => "#" ++ Text.ofNat n.toNat
  | .lowOf p => "#<" ++ p.byteText
  | .highOf p => "#>" ++ p.byteText
  | .direct p => p.text
  | .byX p => p.text ++ ",x"
  | .byY p => p.text ++ ",y"
  | .forward n => List.replicate n (Text.byte '+')

inductive Line
  | instr (op : Mnemonic) (operand : Operand)
  | label (name : Text)
  /-- An instruction without operand on the line of its label. -/
  | marked (name : Text) (op : Mnemonic)
  /-- A reference to a line of the source. -/
  | source (t : Text)
  | verbatim (t : Text)
  deriving DecidableEq, Repr

/-- The text of a line; `lead` stands before all but labels and verbatim text. -/
def Line.text (lead : Text) : Line → Text
  | .instr op .none => lead ++ op.name
  | .instr op operand => lead ++ op.name ++ "  " ++ operand.text
  | .label name => name
  | .marked name op => name ++ [Text.tab] ++ op.name
  | .source t => lead ++ ";\tsrc line: " ++ t
  | .verbatim t => t

/-- Groups of lines. -/
abbrev Code := List (List Line)

namespace Code

def bar : Text := " |"

def groupText : List Line → Text
  | [] => []
  | first :: rest => Text.join bar (first.text " " :: rest.map (Line.text "  "))

/-- Groups without text leave no trace. -/
def text (code : Code) : Text := Text.join bar ((code.map groupText).filter (!·.isEmpty))

/-- Each line a group of its own. -/
def each (lines : List Line) : Code := lines.map ([·])

def lines (code : Code) : List Line := code.flatten

end Code

namespace Asm

def op (m : Mnemonic) : Line := .instr m .none

def adc (o : Operand) : Line := .instr .adc o
def asl (o : Operand) : Line := .instr .asl o
def bcc (o : Operand) : Line := .instr .bcc o
def beq (o : Operand) : Line := .instr .beq o
def bmi (o : Operand) : Line := .instr .bmi o
def bne (o : Operand) : Line := .instr .bne o
def clc : Line := op .clc
def cmp (o : Operand) : Line := .instr .cmp o
def cpx (o : Operand) : Line := .instr .cpx o
def dec (o : Operand) : Line := .instr .dec o
def dex : Line := op .dex
def dey : Line := op .dey
def eor (o : Operand) : Line := .instr .eor o
def inc (o : Operand) : Line := .instr .inc o
def inx : Line := op .inx
def iny : Line := op .iny
def lda (o : Operand) : Line := .instr .lda o
def ldx (o : Operand) : Line := .instr .ldx o
def ldy (o : Operand) : Line := .instr .ldy o
def lsr (o : Operand) : Line := .instr .lsr o
def ora (o : Operand) : Line := .instr .ora o
def pha : Line := op .pha
def pla : Line := op .pla
def rol (o : Operand) : Line := .instr .rol o
def ror (o : Operand) : Line := .instr .ror o
def sbc (o : Operand) : Line := .instr .sbc o
def sec : Line := op .sec
def sta (o : Operand) : Line := .instr .sta o
def stx (o : Operand) : Line := .instr .stx o
def sty (o : Operand) : Line := .instr .sty o
def tax : Line := op .tax
def tay : Line := op .tay
def txa : Line := op .txa
def tya : Line := op .tya

/-- A call of a routine of the runtime library. -/
def library (routine : Text) : Line := .instr .jsr (.direct (.name ("tglib." ++ routine)))

/-- The label that `forward` counts. -/
def here : Line := .label "+"

def next : Operand := .forward 1

/-- The accumulator as the operand of a shift. -/
def acc : Operand := .accumulator

/-- Low bytes of the evaluation stack, `k` bytes above the first free one. -/
def low (k : Int64) : Operand := .byX (.address (0xce00 + k))

/-- High bytes of the evaluation stack. -/
def high (k : Int64) : Operand := .byX (.address (0xcf00 + k))

/-- A byte in the zero page for passing registers through. -/
def scratch : Operand := .direct (.address 0x02)

/-- The pair of bytes in the zero page that library routines use. -/
def pointerLow : Operand := .direct (.address 0xfb)

def pointerHigh : Operand := .direct (.address 0xfc)

def lowByte (v : Int64) : Operand := .imm v.toUInt64.toUInt8

def highByte (v : Int64) : Operand := .imm (v.toUInt64 >>> 8).toUInt8

end Asm

/-- The two bytes of a word. -/
structure Cell where
  lo : Operand
  hi : Operand
  deriving DecidableEq, Repr

namespace Cell

def named (sym : Text) : Cell := ⟨.direct (.name sym), .direct (.plus (.name sym) 1)⟩

def memory (a : Int64) : Cell := ⟨.direct (.address a), .direct (.address (a + 1))⟩

/-- Element `i` of an array of words. -/
def element (array : Text) (i : Int64) : Cell :=
  let lo := Place.elem array i 2
  ⟨.direct lo, .direct (.plus lo 1)⟩

/-- The element of an array that X points at. -/
def indexed (array : Text) : Cell := ⟨.byX (.name array), .byX (.plus (.name array) 1)⟩

/-- The top of the evaluation stack. -/
def top : Cell := ⟨Asm.low 1, Asm.high 1⟩

end Cell

end Stack6502
