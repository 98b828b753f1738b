import CrossAssembler.Word

/-!
# What can be wrong with an instruction

* `Instruction.Error.message` — their wording.
-/

namespace CrossAssembler.Instruction

/-- Why an instruction has no encoding. -/
inductive Error where
  | unknownPlatform (name : String)
  | unknownMnemonic (mnemonic : String)
  | noMatchingForm (mnemonic operand : String)
  | widthUnavailable (width : Nat)
  | valueOutOfRange (value : Int64) (width : Nat)
  | branchOutOfRange (displacement lo hi : Int)
  | bitOutOfRange (value : Int64) (limit : Nat)
  | invalidRestart (value : Int64)
  | outsideHighPage (value : Int64)
  | offsetOutOfRange (value : Int64)
  | bitAddressOutOfRange (value : Int64)
  deriving DecidableEq, Repr

def Error.message : Error → String
  | unknownPlatform name => s!"unknown platform '{name}' (expected 6502, 65816, gb or spc700)"
  | unknownMnemonic mnemonic => s!"unknown mnemonic '{mnemonic}'"
  | noMatchingForm mnemonic operand => s!"'{mnemonic}' does not accept the operand '{operand}'"
  | widthUnavailable width => s!"this addressing mode has no {width}-byte form"
  | valueOutOfRange value width =>
    s!"value {value.toInt} (${Word.hexText value}) does not fit in {width} byte(s)"
  | branchOutOfRange displacement lo hi =>
    s!"branch target out of range: displacement {displacement} not in {lo}..={hi}"
  | bitOutOfRange value limit => s!"bit index {value.toInt} out of range 0..={limit}"
  | invalidRestart value =>
    s!"invalid restart vector ${Word.hexText value} (expected a multiple of 8 up to $38)"
  | outsideHighPage value => s!"address ${Word.hexText value} is outside the high page ($FF00-$FFFF)"
  | offsetOutOfRange value => s!"signed offset {value.toInt} out of range -128..=127"
  | bitAddressOutOfRange value => s!"bit address ${Word.hexText value} exceeds $1FFF"

end CrossAssembler.Instruction
