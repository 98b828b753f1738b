import CrossAssembler.Instruction.Table.Sm83
import CrossAssembler.Instruction.Table.Spc700
import CrossAssembler.Instruction.Table.W65816

/-!
# The instruction set of each processor
-/

namespace CrossAssembler

def Platform.instructions : Platform → InstructionSet
  | mos6502 => Table65816.mos6502
  | w65816 => Table65816.w65816
  | sm83 => TableSm83.sm83
  | spc700 => TableSpc700.spc700

end CrossAssembler
