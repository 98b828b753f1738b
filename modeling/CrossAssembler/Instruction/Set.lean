import CrossAssembler.Instruction.Form
import CrossAssembler.Instruction.Platform
import CrossAssembler.Text.Dotted
import Std.Data.TreeMap

/-!
# Instruction sets

* `InstructionSet.ofEntries` — entries gathered into forms, the most specific form first.
* `splitWidthSuffix` — a mnemonic without a width mark such as `.w`.
-/

namespace CrossAssembler

open Instruction (Error)

/-- One way to write an instruction and one way to encode it. -/
structure Entry where
  mnemonic : String
  pattern : String
  layout : Layout
  width : Nat
  opcode : List UInt8
  deriving DecidableEq, Repr

/-- The forms of each mnemonic. Mnemonics are in lower case. -/
structure InstructionSet where
  forms : Std.TreeMap String (List Form)

namespace InstructionSet

/-- Adds an encoding to the form it belongs to, unless the form has one of that width. A pattern and
layout that are not there yet make a form of their own. -/
def addForm (pattern : Pattern) (layout : Layout) (e : Encoding) : List Form → List Form
  | [] => [⟨pattern, layout, [e]⟩]
  | f :: fs =>
    if f.pattern = pattern ∧ f.layout = layout then
      if f.encodings.any fun other => other.width == e.width then
        f :: fs
      else
        { f with encodings := f.encodings ++ [e] } :: fs
    else
      f :: addForm pattern layout e fs

/-- The forms of a mnemonic with the narrowest encoding first in each, and those with more literal
characters before those with fewer. -/
def arrange (fs : List Form) : List Form :=
  let sorted := fs.map fun f =>
    { f with encodings := f.encodings.mergeSort fun a b => a.width ≤ b.width }
  sorted.mergeSort fun f g => g.pattern.literalLength ≤ f.pattern.literalLength

/-- The instruction set with the given entries. -/
def ofEntries (entries : List Entry) : InstructionSet :=
  let gathered := entries.foldl (fun (table : Std.TreeMap String (List Form)) entry =>
    let added := addForm (Pattern.ofText entry.pattern) entry.layout ⟨entry.width, entry.opcode⟩
      (table.getD entry.mnemonic [])
    table.insert entry.mnemonic added) ∅
  ⟨gathered.map fun _ fs => arrange fs⟩

def mnemonics (set : InstructionSet) : List String := set.forms.keys

def forms? (set : InstructionSet) (mnemonic : String) : Option (List Form) :=
  set.forms[Text.lower mnemonic]?

end InstructionSet

def widthOfMark (mark : List Char) : Option Nat :=
  match mark.map Char.toLower with
  | ['b'] => some 1
  | ['w'] => some 2
  | ['l'] => some 3
  | _ => none

/-- A word without its width mark, and the width the mark stands for. -/
def splitWidthSuffix (word : String) : String × Option Nat :=
  match Text.splitAtLastDot word.toList with
  | some (c :: base, mark) =>
    match widthOfMark mark with
    | some width => (String.ofList (c :: base), some width)
    | none => (word, none)
  | _ => (word, none)

namespace InstructionSet

/-- Whether a word is a mnemonic, with or without a width mark. -/
def isMnemonic (set : InstructionSet) (word : String) : Bool :=
  (set.forms? (splitWidthSuffix word).1).isSome

/-- The first form that has the shape of an operand, with the glyphs of each placeholder. -/
def matchForm? (forms : List Form) (glyphs : List Operand.Glyph) :
    Option (Form × List (List Operand.Glyph)) :=
  forms.findSome? fun f => (f.pattern.match? glyphs).map fun parts => (f, parts)

/-- The form of a mnemonic that an operand has, and the byte range of each placeholder. -/
def matchOperand (set : InstructionSet) (mnemonic operand : String) :
    Except Error (Form × List (Nat × Nat)) :=
  match set.forms? mnemonic with
  | none => .error (.unknownMnemonic mnemonic)
  | some forms =>
    match matchForm? forms (Operand.view operand) with
    | some (f, parts) => .ok (f, parts.map Operand.range)
    | none => .error (.noMatchingForm mnemonic (String.ofList (Text.trim operand.toList)))

end InstructionSet

end CrossAssembler
