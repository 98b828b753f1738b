import CrossAssembler.Instruction.Layout
import CrossAssembler.Instruction.Pattern

/-!
# Addressing modes

* `Form` — an operand pattern with the encodings it has, the narrowest first.
* `Form.select` — the encoding for an operand value.
-/

namespace CrossAssembler

open Instruction (Error)

/-- An addressing mode of a mnemonic. -/
structure Form where
  pattern : Pattern
  layout : Layout
  encodings : List Encoding
  deriving DecidableEq, Repr

namespace Form

/-- The encoding with the most operand bytes. -/
def widest (f : Form) : Encoding := f.encodings.getLast?.getD ⟨0, []⟩

/-- The encoding for an operand value. A forced width is taken or refused. Otherwise a known value
gets the narrowest encoding it fits into that is not below `least`, and anything else the widest. -/
def select (f : Form) (value : Option Int64) (forced : Option Nat) (least : Nat) :
    Except Error Encoding :=
  match forced with
  | some width =>
    match f.encodings.find? fun e => e.width == width with
    | some e => .ok e
    | none => .error (.widthUnavailable width)
  | none =>
    match f.layout, value with
    | .value, some v =>
      let floor := min least f.widest.width
      match f.encodings.find? fun e => floor ≤ e.width && fits v.toInt e.width with
      | some e => .ok e
      | none => .error (.valueOutOfRange v f.widest.width)
    | _, _ => .ok f.widest

/-- The bytes of an instruction with the given encoding at address `pc`. -/
def encode (f : Form) (e : Encoding) (values : List Int64) (pc : Int64) : Except Error (List UInt8) :=
  f.layout.encode e values pc

end Form

end CrossAssembler
