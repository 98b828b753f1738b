import CrossAssembler.Source.Token
import CrossAssembler.Text.Case

/-!
# Directives

* `Directive.spec` — how each is written, what it takes and which block it opens.
-/

namespace CrossAssembler

inductive Directive where
  | org | base
  | bytes | words | longs
  | define
  | enumeration | endEnumeration
  | byteGroup | wordGroup | longGroup | endGroup
  | when | whenDefined | whenUndefined | elseWhen | otherwise | endWhen
  | repetition | endRepetition
  | macroBlock | endMacroBlock
  | includeSource | includeBinary
  | message | failure
  | hexBytes
  deriving DecidableEq, Repr

/-- How the text after a keyword is cut into arguments. -/
inductive ArgumentStyle where
  /-- Pieces between commas. -/
  | list
  /-- The whole text. -/
  | raw
  /-- A name and the rest. -/
  | nameValue
  /-- A name and pieces between commas. -/
  | nameList
  deriving DecidableEq, Repr

/-- What is fixed about a directive. -/
structure Directive.Spec where
  /-- The keyword it is shown by. -/
  name : String
  /-- Other keywords for it. -/
  aliases : List String := []
  least : Nat
  most : Option Nat
  allowsLabel : Bool
  style : ArgumentStyle
  /-- Whether it may stand in a macro. -/
  inMacros : Bool := true
  /-- The directive that ends the block it opens. -/
  closer : Option Directive := none
  /-- The directives that divide the block it opens. -/
  dividers : List Directive := []
  deriving Repr

namespace Directive

def spec : Directive → Spec
  | org => { name := ".ORG", least := 1, most := some 1, allowsLabel := false, style := .list }
  | base => { name := ".BASE", least := 1, most := some 1, allowsLabel := false, style := .list }
  | bytes =>
    { name := ".DB", aliases := [".BYTE"], least := 1, most := none, allowsLabel := true, style := .list }
  | words =>
    { name := ".DW", aliases := [".WORD"], least := 1, most := none, allowsLabel := true, style := .list }
  | longs =>
    { name := ".DL", aliases := [".LONG"], least := 1, most := none, allowsLabel := true, style := .list }
  | define =>
    { name := ".DEF", aliases := [".DEFINE"], least := 2, most := some 2, allowsLabel := false,
      style := .nameValue }
  | enumeration =>
    { name := ".ENUM", least := 0, most := some 1, allowsLabel := false, style := .list,
      closer := some endEnumeration }
  | endEnumeration => { name := ".ENDE", least := 0, most := some 0, allowsLabel := false, style := .list }
  | byteGroup =>
    { name := ".DBG", least := 0, most := some 0, allowsLabel := true, style := .list,
      closer := some endGroup }
  | wordGroup =>
    { name := ".DWG", least := 0, most := some 0, allowsLabel := true, style := .list,
      closer := some endGroup }
  | longGroup =>
    { name := ".DLG", least := 0, most := some 0, allowsLabel := true, style := .list,
      closer := some endGroup }
  | endGroup => { name := ".ENDD", least := 0, most := some 0, allowsLabel := false, style := .list }
  | when =>
    { name := ".IF", least := 1, most := some 1, allowsLabel := false, style := .raw,
      closer := some endWhen, dividers := [elseWhen, otherwise] }
  | whenDefined =>
    { name := ".IFDEF", least := 1, most := some 1, allowsLabel := false, style := .raw,
      closer := some endWhen, dividers := [elseWhen, otherwise] }
  | whenUndefined =>
    { name := ".IFNDEF", least := 1, most := some 1, allowsLabel := false, style := .raw,
      closer := some endWhen, dividers := [elseWhen, otherwise] }
  | elseWhen => { name := ".ELSEIF", least := 1, most := some 1, allowsLabel := false, style := .raw }
  | otherwise => { name := ".ELSE", least := 0, most := some 0, allowsLabel := false, style := .raw }
  | endWhen => { name := ".ENDIF", least := 0, most := some 0, allowsLabel := false, style := .raw }
  | repetition =>
    { name := ".REPEAT", aliases := [".REPT"], least := 1, most := some 1, allowsLabel := true,
      style := .list, closer := some endRepetition }
  | endRepetition => { name := ".ENDR", least := 0, most := some 0, allowsLabel := false, style := .list }
  | macroBlock =>
    { name := ".MACRO", least := 1, most := none, allowsLabel := false, style := .nameList,
      inMacros := false, closer := some endMacroBlock }
  | endMacroBlock => { name := ".ENDM", least := 0, most := some 0, allowsLabel := false, style := .list }
  | includeSource =>
    { name := ".INCLUDE", aliases := [".INCSRC"], least := 1, most := some 1, allowsLabel := true,
      style := .list, inMacros := false }
  | includeBinary =>
    { name := ".INCBIN", least := 1, most := some 3, allowsLabel := true, style := .list }
  | message => { name := ".MSG", least := 1, most := none, allowsLabel := false, style := .list }
  | failure => { name := ".ERROR", least := 0, most := none, allowsLabel := false, style := .list }
  | hexBytes => { name := ".HEX", least := 1, most := some 1, allowsLabel := true, style := .raw }

/-- The directives in the order of their table. -/
def all : List Directive :=
  [org, base, bytes, words, longs, define, enumeration, endEnumeration, byteGroup, wordGroup, longGroup,
   endGroup, when, whenDefined, whenUndefined, elseWhen, otherwise, endWhen, repetition, endRepetition,
   macroBlock, endMacroBlock, includeSource, includeBinary, message, failure, hexBytes]

def name (d : Directive) : String := d.spec.name

def names (d : Directive) : List String := d.spec.name :: d.spec.aliases

def keywords : List String := all.flatMap names

/-- The directive with a keyword in any case. -/
def ofKeyword? (word : String) : Option Directive :=
  all.find? fun d => d.names.any fun name => Text.sameUpToCase name word

/-- Whether a directive opens a block that another one ends. -/
def opens (d closer : Directive) : Bool := d.spec.closer == some closer

def isCloser (d : Directive) : Bool := all.any fun opener => opener.opens d

/-- Whether a directive opens a block of alternatives. -/
def isConditional (d : Directive) : Bool := d.opens endWhen

def cellWidth? : Directive → Option Nat
  | bytes | byteGroup => some 1
  | words | wordGroup => some 2
  | longs | longGroup => some 3
  | _ => none

/-- The arguments in the text after a keyword. -/
def splitArguments (d : Directive) (rest : Token) : List Token :=
  let text := rest.trimmed
  match d.spec.style with
  | .list => text.splitTopLevel ','
  | .raw => if text.isEmpty then [] else [text]
  | .nameValue =>
    if text.isEmpty then
      []
    else
      let (name, tail) := text.splitFirstWord
      if tail.isEmpty then [name] else [name, tail]
  | .nameList =>
    if text.isEmpty then
      []
    else
      let (name, tail) := text.splitFirstWord
      name :: tail.splitTopLevel ','

end Directive

end CrossAssembler
