import CrossAssembler.Instruction.Error

/-!
# Operand layouts

How the values of an instruction's placeholders become bytes.
-/

namespace CrossAssembler

open Instruction (Error)

/-- How placeholder values are stored. -/
inductive Layout where
  /-- No values. -/
  | fixed
  /-- One value, low byte first. -/
  | value
  /-- One branch target, stored as the distance from the end of the instruction. -/
  | relative
  /-- Two bytes, the second value first when `reversed`. -/
  | pair (reversed : Bool)
  /-- A small number in the last opcode byte, from bit `shift` on. -/
  | bitOpcode (shift limit : Nat)
  /-- A restart vector added to the opcode. -/
  | restart
  /-- An address in the page from $FF00, or its low byte. -/
  | highPage
  /-- A signed byte. -/
  | signedByte
  /-- A direct-page address, its bit number in the opcode. -/
  | directBit
  /-- A direct-page address and a branch target, the bit number in the opcode. -/
  | directBitRelative
  /-- A direct-page address and a branch target. -/
  | directRelative
  /-- A 13-bit address with a bit number in the top three bits. -/
  | memoryBit
  deriving DecidableEq, Repr

/-- An opcode and the number of operand bytes that follow it. -/
structure Encoding where
  width : Nat
  opcode : List UInt8
  deriving DecidableEq, Repr

def Encoding.length (e : Encoding) : Nat := e.opcode.length + e.width

/-- Whether a value can be stored in a number of bytes, as a signed or an unsigned number. -/
def fits (value : Int) (width : Nat) : Bool :=
  if width = 0 then false
  else if 8 ≤ width then true
  else -(Nat.pow 2 (8 * width - 1) : Int) ≤ value && value < (Nat.pow 2 (8 * width) : Int)

/-- The low bytes of a number, the lowest first. -/
def littleEndian : Nat → Int → List UInt8
  | 0, _ => []
  | width + 1, value => UInt8.ofNat (value % 256).toNat :: littleEndian width (value / 256)

@[simp] theorem littleEndian_length (width : Nat) (value : Int) :
    (littleEndian width value).length = width := by
  induction width generalizing value with
  | zero => rfl
  | succ n ih => simp [littleEndian, ih]

namespace Layout

def placeholders : Layout → Nat
  | fixed => 0
  | value | relative | bitOpcode .. | restart | highPage | signedByte => 1
  | pair _ | directBit | directRelative | memoryBit => 2
  | directBitRelative => 3

/-- Whether a layout stores a distance, which depends on the address. -/
def isRelative : Layout → Bool
  | relative | directBitRelative | directRelative => true
  | _ => false

def byte (value : Int64) : Except Error UInt8 :=
  if fits value.toInt 1 then
    .ok (UInt8.ofNat (value.toInt % 256).toNat)
  else
    .error (.valueOutOfRange value 1)

def bitNumber (value : Int64) (limit : Nat) : Except Error UInt8 :=
  if 0 ≤ value.toInt ∧ value.toInt ≤ limit then
    .ok (UInt8.ofNat value.toInt.toNat)
  else
    .error (.bitOutOfRange value limit)

/-- The distance from the end of an instruction to a branch target, which must fit as a signed number. -/
def distance (target : Int64) (next : Int) (width : Nat) : Except Error Int :=
  let half : Int := Nat.pow 2 (8 * width - 1)
  let lo := -half
  let hi := half - 1
  let displacement := target.toInt - next
  if lo ≤ displacement ∧ displacement ≤ hi then
    .ok displacement
  else
    .error (.branchOutOfRange displacement lo hi)

def setInFirst (bits : UInt8) (opcode : List UInt8) : List UInt8 := opcode.modifyHead (· ||| bits)

def setInLast (bits : UInt8) (opcode : List UInt8) : List UInt8 :=
  opcode.modify (opcode.length - 1) (· ||| bits)

/-- The bytes of an instruction at address `pc`. A value that is not given counts as zero. -/
def encode (layout : Layout) (e : Encoding) (values : List Int64) (pc : Int64) :
    Except Error (List UInt8) :=
  let next : Int := pc.toInt + e.length
  let v (i : Nat) : Int64 := values[i]?.getD 0
  match layout with
  | fixed => .ok e.opcode
  | value =>
    if fits (v 0).toInt e.width then
      .ok (e.opcode ++ littleEndian e.width (v 0).toInt)
    else
      .error (.valueOutOfRange (v 0) e.width)
  | relative => do
    let d ← distance (v 0) next e.width
    return e.opcode ++ littleEndian e.width d
  | pair reversed => do
    let first ← byte (v 0)
    let second ← byte (v 1)
    return e.opcode ++ (if reversed then [second, first] else [first, second])
  | bitOpcode shift limit => do
    let bit ← bitNumber (v 0) limit
    return setInLast (bit <<< UInt8.ofNat shift) e.opcode
  | restart =>
    if 0 ≤ (v 0).toInt ∧ (v 0).toInt ≤ 0x38 ∧ (v 0).toInt % 8 = 0 then
      .ok (setInFirst (UInt8.ofNat (v 0).toInt.toNat) e.opcode)
    else
      .error (.invalidRestart (v 0))
  | highPage =>
    let address := (v 0).toInt
    if 0 ≤ address ∧ address ≤ 0xFF ∨ 0xFF00 ≤ address ∧ address ≤ 0xFFFF then
      .ok (e.opcode ++ littleEndian 1 address)
    else
      .error (.outsideHighPage (v 0))
  | signedByte =>
    if -128 ≤ (v 0).toInt ∧ (v 0).toInt ≤ 127 then
      .ok (e.opcode ++ littleEndian 1 (v 0).toInt)
    else
      .error (.offsetOutOfRange (v 0))
  | directBit => do
    let address ← byte (v 0)
    let bit ← bitNumber (v 1) 7
    return setInFirst (bit <<< 5) e.opcode ++ [address]
  | directBitRelative => do
    let address ← byte (v 0)
    let bit ← bitNumber (v 1) 7
    let d ← distance (v 2) next 1
    return setInFirst (bit <<< 5) e.opcode ++ address :: littleEndian 1 d
  | directRelative => do
    let address ← byte (v 0)
    let d ← distance (v 1) next 1
    return e.opcode ++ address :: littleEndian 1 d
  | memoryBit =>
    let address := (v 0).toInt
    if 0 ≤ address ∧ address ≤ 0x1FFF then do
      let bit ← bitNumber (v 1) 7
      return e.opcode ++ littleEndian 2 (address + 0x2000 * bit.toNat)
    else
      .error (.bitAddressOutOfRange (v 0))

end Layout

end CrossAssembler
