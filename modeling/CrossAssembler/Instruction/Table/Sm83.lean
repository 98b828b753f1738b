import CrossAssembler.Instruction.Set

/-!
# The instruction set of the Game Boy processor

Memory operands may be written with square or with round brackets, so an entry with square brackets
stands for two.

* `entries` — all entries, in the order that decides between equally specific forms.
-/

namespace CrossAssembler.TableSm83

/-- The 8-bit operands in the order of their opcode field. -/
def registers : List String := ["B", "C", "D", "E", "H", "L", "[HL]", "A"]

/-- The register pairs of 16-bit loads and arithmetic. -/
def pairs : List String := ["BC", "DE", "HL", "SP"]

def stackPairs : List String := ["BC", "DE", "HL", "AF"]

def conditions : List String := ["NZ", "Z", "NC", "C"]

/-- The arithmetic operations on the accumulator. -/
def arithmetic : List String := ["add", "adc", "sub", "sbc", "and", "xor", "or", "cp"]

def rotations : List String := ["rlc", "rrc", "rl", "rr", "sla", "sra", "swap", "srl"]

/-- A pattern with round brackets for square ones, placeholders kept. -/
def roundBrackets : List Char → List Char
  | '[' :: 'e' :: 'x' :: 'p' :: ']' :: rest => '[' :: 'e' :: 'x' :: 'p' :: ']' :: roundBrackets rest
  | '[' :: rest => '(' :: roundBrackets rest
  | ']' :: rest => ')' :: roundBrackets rest
  | c :: rest => c :: roundBrackets rest
  | [] => []

/-- An entry under both spellings of its brackets. -/
def both (mnemonic pattern : String) (layout : Layout) (width : Nat) (opcode : List UInt8) : List Entry :=
  let other := String.ofList (roundBrackets pattern.toList)
  if other = pattern then
    [⟨mnemonic, pattern, layout, width, opcode⟩]
  else
    [⟨mnemonic, pattern, layout, width, opcode⟩, ⟨mnemonic, other, layout, width, opcode⟩]

def fixed (mnemonic pattern : String) (opcode : List UInt8) : List Entry :=
  both mnemonic pattern .fixed 0 opcode

/-- Names with the position they have in their opcode field. -/
def indexed (names : List String) : List (String × UInt8) :=
  names.zipIdx.map fun (name, i) => (name, UInt8.ofNat i)

/-- Instructions that are written without an operand. -/
def plain : List Entry :=
  ([("nop", 0x00), ("halt", 0x76), ("di", 0xF3), ("ei", 0xFB), ("daa", 0x27), ("cpl", 0x2F),
    ("scf", 0x37), ("ccf", 0x3F), ("rlca", 0x07), ("rrca", 0x0F), ("rla", 0x17), ("rra", 0x1F),
    ("reti", 0xD9)] : List (String × UInt8)).flatMap (fun (mnemonic, opcode) => fixed mnemonic "" [opcode]) ++
  fixed "stop" "" [0x10, 0x00] ++
  fixed "cpl" "A" [0x2F]

/-- Loads between registers and of immediate bytes; there is none from `[HL]` to itself. -/
def registerLoads : List Entry :=
  (indexed registers).flatMap fun (dst, i) =>
    ((indexed registers).flatMap fun (src, j) =>
      if i = 6 ∧ j = 6 then [] else fixed "ld" (dst ++ "," ++ src) [0x40 + i * 8 + j]) ++
    both "ld" (dst ++ ",[exp]") .value 1 [0x06 + i * 8]

def memoryLoads : List Entry :=
  ([("[BC],A", 0x02), ("[DE],A", 0x12), ("[HL+],A", 0x22), ("[HLI],A", 0x22), ("[HL-],A", 0x32),
    ("[HLD],A", 0x32), ("A,[BC]", 0x0A), ("A,[DE]", 0x1A), ("A,[HL+]", 0x2A), ("A,[HLI]", 0x2A),
    ("A,[HL-]", 0x3A), ("A,[HLD]", 0x3A), ("[C],A", 0xE2), ("[$FF00+C],A", 0xE2), ("A,[C]", 0xF2),
    ("A,[$FF00+C]", 0xF2), ("SP,HL", 0xF9)] : List (String × UInt8)).flatMap
      (fun (pattern, opcode) => fixed "ld" pattern [opcode]) ++
  both "ld" "[[exp]],A" .value 2 [0xEA] ++
  both "ld" "A,[[exp]]" .value 2 [0xFA] ++
  both "ld" "[[exp]],SP" .value 2 [0x08] ++
  both "ld" "HL,SP+[exp]" .signedByte 1 [0xF8] ++
  fixed "ldi" "[HL],A" [0x22] ++
  fixed "ldi" "A,[HL]" [0x2A] ++
  fixed "ldd" "[HL],A" [0x32] ++
  fixed "ldd" "A,[HL]" [0x3A] ++
  fixed "ldh" "[C],A" [0xE2] ++
  fixed "ldh" "A,[C]" [0xF2] ++
  both "ldh" "[[exp]],A" .highPage 1 [0xE0] ++
  both "ldh" "A,[[exp]]" .highPage 1 [0xF0]

/-- Instructions on register pairs and the stack. -/
def wide : List Entry :=
  ((indexed pairs).flatMap fun (pair, i) =>
    both "ld" (pair ++ ",[exp]") .value 2 [0x01 + i * 16] ++
    fixed "inc" pair [0x03 + i * 16] ++
    fixed "dec" pair [0x0B + i * 16] ++
    fixed "add" ("HL," ++ pair) [0x09 + i * 16]) ++
  ((indexed stackPairs).flatMap fun (pair, i) =>
    fixed "push" pair [0xC5 + i * 16] ++
    fixed "pop" pair [0xC1 + i * 16]) ++
  both "add" "SP,[exp]" .signedByte 1 [0xE8]

/-- Arithmetic on the accumulator and on single registers. -/
def narrow : List Entry :=
  ((indexed arithmetic).flatMap fun (mnemonic, op) =>
    ((indexed registers).flatMap fun (name, i) =>
      fixed mnemonic ("A," ++ name) [0x80 + op * 8 + i] ++
      fixed mnemonic name [0x80 + op * 8 + i]) ++
    both mnemonic "A,[exp]" .value 1 [0xC6 + op * 8] ++
    both mnemonic "[exp]" .value 1 [0xC6 + op * 8]) ++
  ((indexed registers).flatMap fun (name, i) =>
    fixed "inc" name [0x04 + i * 8] ++
    fixed "dec" name [0x05 + i * 8])

/-- Rotations, shifts and single bits, all behind the byte $CB. -/
def bits : List Entry :=
  ((indexed rotations).flatMap fun (mnemonic, op) =>
    (indexed registers).flatMap fun (name, i) => fixed mnemonic name [0xCB, op * 8 + i]) ++
  (([("bit", 0x40), ("res", 0x80), ("set", 0xC0)] : List (String × UInt8)).flatMap
    fun (mnemonic, base) =>
      (indexed registers).flatMap fun (name, i) =>
        both mnemonic ("[exp]," ++ name) (.bitOpcode 3 7) 0 [0xCB, base + i])

def control : List Entry :=
  both "jp" "[exp]" .value 2 [0xC3] ++
  fixed "jp" "HL" [0xE9] ++
  fixed "jp" "[HL]" [0xE9] ++
  both "jr" "[exp]" .relative 1 [0x18] ++
  both "call" "[exp]" .value 2 [0xCD] ++
  fixed "ret" "" [0xC9] ++
  ((indexed conditions).flatMap fun (condition, i) =>
    both "jp" (condition ++ ",[exp]") .value 2 [0xC2 + i * 8] ++
    both "jr" (condition ++ ",[exp]") .relative 1 [0x20 + i * 8] ++
    both "call" (condition ++ ",[exp]") .value 2 [0xC4 + i * 8] ++
    fixed "ret" condition [0xC0 + i * 8]) ++
  both "rst" "[exp]" .restart 0 [0xC7]

def entries : List Entry :=
  plain ++ registerLoads ++ memoryLoads ++ wide ++ narrow ++ bits ++ control

def sm83 : InstructionSet := .ofEntries entries

end CrossAssembler.TableSm83
