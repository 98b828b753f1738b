import CrossAssembler.Instruction.Set

/-!
# The 6502 and 65816 instruction sets

Both processors share one opcode table. The 6502 has a subset of it, and its immediate operands are
always one byte.
-/

namespace CrossAssembler.Table65816

inductive Mode where
  | implied
  | accumulator
  | immediate8
  | immediate16
  /-- As wide as the accumulator. -/
  | immediateM
  /-- As wide as the index registers. -/
  | immediateX
  | direct
  | directX
  | directY
  | directIndirect
  | directIndirectLong
  | directXIndirect
  | directIndirectY
  | directIndirectLongY
  | stack
  | stackIndirectY
  | absolute
  | absoluteX
  | absoluteY
  | long
  | longX
  | absoluteIndirect
  | absoluteXIndirect
  | absoluteIndirectLong
  | branch8
  | branch16
  | blockMove
  deriving DecidableEq, Repr

/-- The operands a mode is written with: pattern, layout and operand width. -/
def Mode.operands (wideImmediates : Bool) : Mode → List (String × Layout × Nat)
  | implied => [("", .fixed, 0)]
  | accumulator => [("A", .fixed, 0), ("", .fixed, 0)]
  | immediate8 => [("#[exp]", .value, 1)]
  | immediateM | immediateX =>
    if wideImmediates then [("#[exp]", .value, 1), ("#[exp]", .value, 2)] else [("#[exp]", .value, 1)]
  | immediate16 => [("[exp]", .value, 2), ("#[exp]", .value, 2)]
  | direct => [("[exp]", .value, 1)]
  | absolute => [("[exp]", .value, 2)]
  | long => [("[exp]", .value, 3)]
  | directX => [("[exp],X", .value, 1)]
  | absoluteX => [("[exp],X", .value, 2)]
  | longX => [("[exp],X", .value, 3)]
  | directY => [("[exp],Y", .value, 1)]
  | absoluteY => [("[exp],Y", .value, 2)]
  | directIndirect => [("([exp])", .value, 1)]
  | absoluteIndirect => [("([exp])", .value, 2)]
  | directIndirectLong => [("[[exp]]", .value, 1)]
  | absoluteIndirectLong => [("[[exp]]", .value, 2)]
  | directXIndirect => [("([exp],X)", .value, 1)]
  | absoluteXIndirect => [("([exp],X)", .value, 2)]
  | directIndirectY => [("([exp]),Y", .value, 1)]
  | directIndirectLongY => [("[[exp]],Y", .value, 1)]
  | stack => [("[exp],S", .value, 1)]
  | stackIndirectY => [("([exp],S),Y", .value, 1)]
  | branch8 => [("[exp]", .relative, 1)]
  | branch16 => [("[exp]", .relative, 2)]
  | blockMove => [("[exp],[exp]", .pair true, 2)]

/-- Mnemonic and mode of each opcode, in order. -/
def opcodes : List (String × Mode) :=
  [("brk", .immediate8), ("ora", .directXIndirect), ("cop", .immediate8), ("ora", .stack),
   ("tsb", .direct), ("ora", .direct), ("asl", .direct), ("ora", .directIndirectLong),
   ("php", .implied), ("ora", .immediateM), ("asl", .accumulator), ("phd", .implied),
   ("tsb", .absolute), ("ora", .absolute), ("asl", .absolute), ("ora", .long),
   -- $10
   ("bpl", .branch8), ("ora", .directIndirectY), ("ora", .directIndirect), ("ora", .stackIndirectY),
   ("trb", .direct), ("ora", .directX), ("asl", .directX), ("ora", .directIndirectLongY),
   ("clc", .implied), ("ora", .absoluteY), ("inc", .accumulator), ("tcs", .implied),
   ("trb", .absolute), ("ora", .absoluteX), ("asl", .absoluteX), ("ora", .longX),
   -- $20
   ("jsr", .absolute), ("and", .directXIndirect), ("jsl", .long), ("and", .stack),
   ("bit", .direct), ("and", .direct), ("rol", .direct), ("and", .directIndirectLong),
   ("plp", .implied), ("and", .immediateM), ("rol", .accumulator), ("pld", .implied),
   ("bit", .absolute), ("and", .absolute), ("rol", .absolute), ("and", .long),
   -- $30
   ("bmi", .branch8), ("and", .directIndirectY), ("and", .directIndirect), ("and", .stackIndirectY),
   ("bit", .directX), ("and", .directX), ("rol", .directX), ("and", .directIndirectLongY),
   ("sec", .implied), ("and", .absoluteY), ("dec", .accumulator), ("tsc", .implied),
   ("bit", .absoluteX), ("and", .absoluteX), ("rol", .absoluteX), ("and", .longX),
   -- $40
   ("rti", .implied), ("eor", .directXIndirect), ("wdm", .immediate8), ("eor", .stack),
   ("mvp", .blockMove), ("eor", .direct), ("lsr", .direct), ("eor", .directIndirectLong),
   ("pha", .implied), ("eor", .immediateM), ("lsr", .accumulator), ("phk", .implied),
   ("jmp", .absolute), ("eor", .absolute), ("lsr", .absolute), ("eor", .long),
   -- $50
   ("bvc", .branch8), ("eor", .directIndirectY), ("eor", .directIndirect), ("eor", .stackIndirectY),
   ("mvn", .blockMove), ("eor", .directX), ("lsr", .directX), ("eor", .directIndirectLongY),
   ("cli", .implied), ("eor", .absoluteY), ("phy", .implied), ("tcd", .implied),
   ("jml", .long), ("eor", .absoluteX), ("lsr", .absoluteX), ("eor", .longX),
   -- $60
   ("rts", .implied), ("adc", .directXIndirect), ("per", .branch16), ("adc", .stack),
   ("stz", .direct), ("adc", .direct), ("ror", .direct), ("adc", .directIndirectLong),
   ("pla", .implied), ("adc", .immediateM), ("ror", .accumulator), ("rtl", .implied),
   ("jmp", .absoluteIndirect), ("adc", .absolute), ("ror", .absolute), ("adc", .long),
   -- $70
   ("bvs", .branch8), ("adc", .directIndirectY), ("adc", .directIndirect), ("adc", .stackIndirectY),
   ("stz", .directX), ("adc", .directX), ("ror", .directX), ("adc", .directIndirectLongY),
   ("sei", .implied), ("adc", .absoluteY), ("ply", .implied), ("tdc", .implied),
   ("jmp", .absoluteXIndirect), ("adc", .absoluteX), ("ror", .absoluteX), ("adc", .longX),
   -- $80
   ("bra", .branch8), ("sta", .directXIndirect), ("brl", .branch16), ("sta", .stack),
   ("sty", .direct), ("sta", .direct), ("stx", .direct), ("sta", .directIndirectLong),
   ("dey", .implied), ("bit", .immediateM), ("txa", .implied), ("phb", .implied),
   ("sty", .absolute), ("sta", .absolute), ("stx", .absolute), ("sta", .long),
   -- $90
   ("bcc", .branch8), ("sta", .directIndirectY), ("sta", .directIndirect), ("sta", .stackIndirectY),
   ("sty", .directX), ("sta", .directX), ("stx", .directY), ("sta", .directIndirectLongY),
   ("tya", .implied), ("sta", .absoluteY), ("txs", .implied), ("txy", .implied),
   ("stz", .absolute), ("sta", .absoluteX), ("stz", .absoluteX), ("sta", .longX),
   -- $A0
   ("ldy", .immediateX), ("lda", .directXIndirect), ("ldx", .immediateX), ("lda", .stack),
   ("ldy", .direct), ("lda", .direct), ("ldx", .direct), ("lda", .directIndirectLong),
   ("tay", .implied), ("lda", .immediateM), ("tax", .implied), ("plb", .implied),
   ("ldy", .absolute), ("lda", .absolute), ("ldx", .absolute), ("lda", .long),
   -- $B0
   ("bcs", .branch8), ("lda", .directIndirectY), ("lda", .directIndirect), ("lda", .stackIndirectY),
   ("ldy", .directX), ("lda", .directX), ("ldx", .directY), ("lda", .directIndirectLongY),
   ("clv", .implied), ("lda", .absoluteY), ("tsx", .implied), ("tyx", .implied),
   ("ldy", .absoluteX), ("lda", .absoluteX), ("ldx", .absoluteY), ("lda", .longX),
   -- $C0
   ("cpy", .immediateX), ("cmp", .directXIndirect), ("rep", .immediate8), ("cmp", .stack),
   ("cpy", .direct), ("cmp", .direct), ("dec", .direct), ("cmp", .directIndirectLong),
   ("iny", .implied), ("cmp", .immediateM), ("dex", .implied), ("wai", .implied),
   ("cpy", .absolute), ("cmp", .absolute), ("dec", .absolute), ("cmp", .long),
   -- $D0
   ("bne", .branch8), ("cmp", .directIndirectY), ("cmp", .directIndirect), ("cmp", .stackIndirectY),
   ("pei", .directIndirect), ("cmp", .directX), ("dec", .directX), ("cmp", .directIndirectLongY),
   ("cld", .implied), ("cmp", .absoluteY), ("phx", .implied), ("stp", .implied),
   ("jmp", .absoluteIndirectLong), ("cmp", .absoluteX), ("dec", .absoluteX), ("cmp", .longX),
   -- $E0
   ("cpx", .immediateX), ("sbc", .directXIndirect), ("sep", .immediate8), ("sbc", .stack),
   ("cpx", .direct), ("sbc", .direct), ("inc", .direct), ("sbc", .directIndirectLong),
   ("inx", .implied), ("sbc", .immediateM), ("nop", .implied), ("xba", .implied),
   ("cpx", .absolute), ("sbc", .absolute), ("inc", .absolute), ("sbc", .long),
   -- $F0
   ("beq", .branch8), ("sbc", .directIndirectY), ("sbc", .directIndirect), ("sbc", .stackIndirectY),
   ("pea", .immediate16), ("sbc", .directX), ("inc", .directX), ("sbc", .directIndirectLongY),
   ("sed", .implied), ("sbc", .absoluteY), ("plx", .implied), ("xce", .implied),
   ("jsr", .absoluteXIndirect), ("sbc", .absoluteX), ("inc", .absoluteX), ("sbc", .longX)]

/-- The opcodes that the 6502 has. -/
def opcodes6502 : List UInt8 :=
  [0x00, 0x01, 0x05, 0x06, 0x08, 0x09, 0x0A, 0x0D, 0x0E, 0x10, 0x11, 0x15, 0x16, 0x18, 0x19, 0x1D,
   0x1E, 0x20, 0x21, 0x24, 0x25, 0x26, 0x28, 0x29, 0x2A, 0x2C, 0x2D, 0x2E, 0x30, 0x31, 0x35, 0x36,
   0x38, 0x39, 0x3D, 0x3E, 0x40, 0x41, 0x45, 0x46, 0x48, 0x49, 0x4A, 0x4C, 0x4D, 0x4E, 0x50, 0x51,
   0x55, 0x56, 0x58, 0x59, 0x5D, 0x5E, 0x60, 0x61, 0x65, 0x66, 0x68, 0x69, 0x6A, 0x6C, 0x6D, 0x6E,
   0x70, 0x71, 0x75, 0x76, 0x78, 0x79, 0x7D, 0x7E, 0x81, 0x84, 0x85, 0x86, 0x88, 0x8A, 0x8C, 0x8D,
   0x8E, 0x90, 0x91, 0x94, 0x95, 0x96, 0x98, 0x99, 0x9A, 0x9D, 0xA0, 0xA1, 0xA2, 0xA4, 0xA5, 0xA6,
   0xA8, 0xA9, 0xAA, 0xAC, 0xAD, 0xAE, 0xB0, 0xB1, 0xB4, 0xB5, 0xB6, 0xB8, 0xB9, 0xBA, 0xBC, 0xBD,
   0xBE, 0xC0, 0xC1, 0xC4, 0xC5, 0xC6, 0xC8, 0xC9, 0xCA, 0xCC, 0xCD, 0xCE, 0xD0, 0xD1, 0xD5, 0xD6,
   0xD8, 0xD9, 0xDD, 0xDE, 0xE0, 0xE1, 0xE4, 0xE5, 0xE6, 0xE8, 0xE9, 0xEA, 0xEC, 0xED, 0xEE, 0xF0,
   0xF1, 0xF5, 0xF6, 0xF8, 0xF9, 0xFD, 0xFE]

def entriesOf (wideImmediates : Bool) (opcode : UInt8) (mnemonic : String) (mode : Mode) : List Entry :=
  (mode.operands wideImmediates).map fun (pattern, layout, width) =>
    ⟨mnemonic, pattern, layout, width, [opcode]⟩

def numbered : List (UInt8 × String × Mode) :=
  opcodes.zipIdx.map fun (op, i) => (UInt8.ofNat i, op)

/-- The entries of the 65816. The signature byte of `brk` may be left out, and `brk` and `cop` may be
written without the immediate mark. -/
def entries65816 : List Entry :=
  (numbered.flatMap fun (opcode, mnemonic, mode) => entriesOf true opcode mnemonic mode) ++
    [⟨"brk", "", .fixed, 0, [0x00]⟩, ⟨"brk", "[exp]", .value, 1, [0x00]⟩,
     ⟨"cop", "[exp]", .value, 1, [0x02]⟩, ⟨"jml", "[[exp]]", .value, 2, [0xDC]⟩]

/-- The entries of the 6502. -/
def entries6502 : List Entry :=
  ((numbered.filter fun (opcode, _) => opcodes6502.contains opcode).flatMap
    fun (opcode, mnemonic, mode) => entriesOf false opcode mnemonic mode) ++
    [⟨"brk", "", .fixed, 0, [0x00]⟩]

def w65816 : InstructionSet := .ofEntries entries65816

def mos6502 : InstructionSet := .ofEntries entries6502

end CrossAssembler.Table65816
