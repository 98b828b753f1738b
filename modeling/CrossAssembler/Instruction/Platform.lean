import CrossAssembler.Text.Blank
import CrossAssembler.Text.Case

/-!
# Target processors

* `Platform` — the four processors.
* `Platform.ofName?` — a processor by any of its names.
-/

namespace CrossAssembler

/-- The processors code can be assembled for. -/
inductive Platform where
  | mos6502
  | w65816
  /-- The processor of the Game Boy. -/
  | sm83
  | spc700
  deriving DecidableEq, Repr

namespace Platform

instance : Inhabited Platform := ⟨w65816⟩

def name : Platform → String
  | mos6502 => "6502"
  | w65816 => "65816"
  | sm83 => "gb"
  | spc700 => "spc700"

def names : Platform → List String
  | mos6502 => ["6502", "mos6502", "nes"]
  | w65816 => ["65816", "65c816", "w65816", "snes"]
  | sm83 => ["gb", "sm83", "gbz80", "lr35902"]
  | spc700 => ["spc700", "spc"]

def all : List Platform := [mos6502, w65816, sm83, spc700]

/-- The processor with a name; case and surrounding blanks do not count. -/
def ofName? (name : String) : Option Platform :=
  let key := String.ofList ((Text.trim name.toList).map Char.toLower)
  all.find? fun p => p.names.contains key

end Platform

end CrossAssembler
