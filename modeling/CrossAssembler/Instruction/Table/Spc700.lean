import CrossAssembler.Instruction.Set

/-!
# The SPC700 instruction set

* `entries` — all entries, in the order that decides between equally specific forms.
-/

namespace CrossAssembler.TableSpc700

/-- A shape with text in place of its `@`. -/
def fill (shape : String) (text : List Char) : String :=
  String.ofList (shape.toList.flatMap fun c => if c = '@' then text else [c])

/-- The direct-page and absolute entries of an operand shape, in which `@` stands for the address. -/
def memory (mnemonic shape : String) (direct : Option UInt8) (absolute : UInt8) : List Entry :=
  let plain := fill shape "[exp]".toList
  (direct.toList.map fun opcode => ⟨mnemonic, plain, .value, 1, [opcode]⟩) ++
    [⟨mnemonic, plain, .value, 2, [absolute]⟩,
     ⟨mnemonic, fill shape "![exp]".toList, .value, 2, [absolute]⟩]

def fixed (mnemonic pattern : String) (opcode : UInt8) : List Entry :=
  [⟨mnemonic, pattern, .fixed, 0, [opcode]⟩]

/-- An instruction with the given layout and a one-byte opcode. -/
def plain (mnemonic pattern : String) (layout : Layout) (width : Nat) (opcode : UInt8) : List Entry :=
  [⟨mnemonic, pattern, layout, width, [opcode]⟩]

def moves : List Entry :=
  plain "mov" "A,#[exp]" .value 1 0xE8 ++
  fixed "mov" "A,(X)" 0xE6 ++
  fixed "mov" "A,(X)+" 0xBF ++
  memory "mov" "A,@" (some 0xE4) 0xE5 ++
  memory "mov" "A,@+X" (some 0xF4) 0xF5 ++
  memory "mov" "A,@+Y" none 0xF6 ++
  plain "mov" "A,[[exp]+X]" .value 1 0xE7 ++
  plain "mov" "A,[[exp]]+Y" .value 1 0xF7 ++
  plain "mov" "X,#[exp]" .value 1 0xCD ++
  memory "mov" "X,@" (some 0xF8) 0xE9 ++
  plain "mov" "X,[exp]+Y" .value 1 0xF9 ++
  plain "mov" "Y,#[exp]" .value 1 0x8D ++
  memory "mov" "Y,@" (some 0xEB) 0xEC ++
  plain "mov" "Y,[exp]+X" .value 1 0xFB ++
  fixed "mov" "(X),A" 0xC6 ++
  fixed "mov" "(X)+,A" 0xAF ++
  memory "mov" "@,A" (some 0xC4) 0xC5 ++
  memory "mov" "@+X,A" (some 0xD4) 0xD5 ++
  memory "mov" "@+Y,A" none 0xD6 ++
  plain "mov" "[[exp]+X],A" .value 1 0xC7 ++
  plain "mov" "[[exp]]+Y,A" .value 1 0xD7 ++
  memory "mov" "@,X" (some 0xD8) 0xC9 ++
  plain "mov" "[exp]+Y,X" .value 1 0xD9 ++
  memory "mov" "@,Y" (some 0xCB) 0xCC ++
  plain "mov" "[exp]+X,Y" .value 1 0xDB ++
  fixed "mov" "A,X" 0x7D ++
  fixed "mov" "A,Y" 0xDD ++
  fixed "mov" "X,A" 0x5D ++
  fixed "mov" "Y,A" 0xFD ++
  fixed "mov" "X,SP" 0x9D ++
  fixed "mov" "SP,X" 0xBD ++
  plain "mov" "[exp],[exp]" (.pair true) 2 0xFA ++
  plain "mov" "[exp],#[exp]" (.pair true) 2 0x8F

/-- Arithmetic and logic on the accumulator; all operations share one column of opcodes. -/
def arithmetic : List Entry :=
  (([("or", 0x00), ("and", 0x20), ("eor", 0x40), ("cmp", 0x60), ("adc", 0x80), ("sbc", 0xA0)] :
      List (String × UInt8)).flatMap fun (mnemonic, base) =>
    plain mnemonic "A,#[exp]" .value 1 (base + 0x08) ++
    fixed mnemonic "A,(X)" (base + 0x06) ++
    memory mnemonic "A,@" (some (base + 0x04)) (base + 0x05) ++
    memory mnemonic "A,@+X" (some (base + 0x14)) (base + 0x15) ++
    memory mnemonic "A,@+Y" none (base + 0x16) ++
    plain mnemonic "A,[[exp]+X]" .value 1 (base + 0x07) ++
    plain mnemonic "A,[[exp]]+Y" .value 1 (base + 0x17) ++
    fixed mnemonic "(X),(Y)" (base + 0x19) ++
    plain mnemonic "[exp],[exp]" (.pair true) 2 (base + 0x09) ++
    plain mnemonic "[exp],#[exp]" (.pair true) 2 (base + 0x18)) ++
  plain "cmp" "X,#[exp]" .value 1 0xC8 ++
  memory "cmp" "X,@" (some 0x3E) 0x1E ++
  plain "cmp" "Y,#[exp]" .value 1 0xAD ++
  memory "cmp" "Y,@" (some 0x7E) 0x5E

/-- Instructions that read, change and write back: opcode on the accumulator, in the direct page,
indexed in the direct page, and absolute. -/
def modifications : List Entry :=
  (([("inc", 0xBC, 0xAB, 0xBB, 0xAC), ("dec", 0x9C, 0x8B, 0x9B, 0x8C), ("asl", 0x1C, 0x0B, 0x1B, 0x0C),
     ("lsr", 0x5C, 0x4B, 0x5B, 0x4C), ("rol", 0x3C, 0x2B, 0x3B, 0x2C), ("ror", 0x7C, 0x6B, 0x7B, 0x6C)] :
      List (String × UInt8 × UInt8 × UInt8 × UInt8)).flatMap
        fun (mnemonic, accumulator, direct, directX, absolute) =>
    fixed mnemonic "A" accumulator ++
    memory mnemonic "@" (some direct) absolute ++
    plain mnemonic "[exp]+X" .value 1 directX) ++
  fixed "inc" "X" 0x3D ++
  fixed "inc" "Y" 0xFC ++
  fixed "dec" "X" 0x1D ++
  fixed "dec" "Y" 0xDC ++
  fixed "xcn" "A" 0x9F

/-- 16-bit and decimal instructions. -/
def wide : List Entry :=
  plain "movw" "YA,[exp]" .value 1 0xBA ++
  plain "movw" "[exp],YA" .value 1 0xDA ++
  plain "incw" "[exp]" .value 1 0x3A ++
  plain "decw" "[exp]" .value 1 0x1A ++
  plain "addw" "YA,[exp]" .value 1 0x7A ++
  plain "subw" "YA,[exp]" .value 1 0x9A ++
  plain "cmpw" "YA,[exp]" .value 1 0x5A ++
  fixed "mul" "YA" 0xCF ++
  fixed "div" "YA,X" 0x9E ++
  fixed "daa" "A" 0xDF ++
  fixed "das" "A" 0xBE

def branches : List Entry :=
  (([("bra", 0x2F), ("beq", 0xF0), ("bne", 0xD0), ("bcs", 0xB0), ("bcc", 0x90), ("bvs", 0x70),
     ("bvc", 0x50), ("bmi", 0x30), ("bpl", 0x10)] : List (String × UInt8)).flatMap
    fun (mnemonic, opcode) => plain mnemonic "[exp]" .relative 1 opcode) ++
  plain "bbs" "[exp].[exp],[exp]" .directBitRelative 2 0x03 ++
  plain "bbc" "[exp].[exp],[exp]" .directBitRelative 2 0x13 ++
  plain "cbne" "[exp],[exp]" .directRelative 2 0x2E ++
  plain "cbne" "[exp]+X,[exp]" .directRelative 2 0xDE ++
  plain "dbnz" "[exp],[exp]" .directRelative 2 0x6E ++
  plain "dbnz" "Y,[exp]" .relative 1 0xFE

/-- Calls, jumps and instructions without an operand. -/
def control : List Entry :=
  memory "jmp" "@" none 0x5F ++
  plain "jmp" "[![exp]+X]" .value 2 0x1F ++
  plain "jmp" "[[exp]+X]" .value 2 0x1F ++
  memory "call" "@" none 0x3F ++
  plain "pcall" "[exp]" .value 1 0x4F ++
  plain "tcall" "[exp]" (.bitOpcode 4 15) 0 0x01 ++
  (([("brk", 0x0F), ("ret", 0x6F), ("reti", 0x7F), ("clrc", 0x60), ("setc", 0x80), ("notc", 0xED),
     ("clrv", 0xE0), ("clrp", 0x20), ("setp", 0x40), ("ei", 0xA0), ("di", 0xC0), ("nop", 0x00),
     ("sleep", 0xEF), ("stop", 0xFF)] : List (String × UInt8)).flatMap
    fun (mnemonic, opcode) => fixed mnemonic "" opcode) ++
  (([("A", 0x2D, 0xAE), ("X", 0x4D, 0xCE), ("Y", 0x6D, 0xEE), ("PSW", 0x0D, 0x8E)] :
      List (String × UInt8 × UInt8)).flatMap
    fun (register, push, pop) => fixed "push" register push ++ fixed "pop" register pop)

def bits : List Entry :=
  plain "set1" "[exp].[exp]" .directBit 1 0x02 ++
  plain "clr1" "[exp].[exp]" .directBit 1 0x12 ++
  memory "tset1" "@" none 0x0E ++
  memory "tclr1" "@" none 0x4E ++
  plain "and1" "C,[exp].[exp]" .memoryBit 2 0x4A ++
  plain "and1" "C,/[exp].[exp]" .memoryBit 2 0x6A ++
  plain "or1" "C,[exp].[exp]" .memoryBit 2 0x0A ++
  plain "or1" "C,/[exp].[exp]" .memoryBit 2 0x2A ++
  plain "eor1" "C,[exp].[exp]" .memoryBit 2 0x8A ++
  plain "not1" "[exp].[exp]" .memoryBit 2 0xEA ++
  plain "mov1" "C,[exp].[exp]" .memoryBit 2 0xAA ++
  plain "mov1" "[exp].[exp],C" .memoryBit 2 0xCA

def entries : List Entry :=
  moves ++ arithmetic ++ modifications ++ wide ++ branches ++ control ++ bits

def spc700 : InstructionSet := .ofEntries entries

end CrossAssembler.TableSpc700
