import CrossAssembler.Instruction.Set
import CrossAssembler.Line.Basic
import CrossAssembler.Source.File
import CrossAssembler.Source.Piece

/-!
# What a line says

The first keyword or mnemonic of a line decides what it is, and an equals sign before any of them
makes it an assignment. Comments are attached to the next line with content.

* `classifySource` — the lines with content of a source.
-/

namespace CrossAssembler

open Text

/-- A line with content. -/
structure ClassifiedLine where
  origin : Token
  label : Option Token
  kind : Line.Kind
  comment : Option String
  deriving Repr

/-- The label in the text before a byte of a line; a colon after it does not belong to it. -/
def labelBefore (content : Token) (stop : Nat) : Option Token :=
  let t := ((content.slice 0 stop).trimmed).withoutColon
  if t.isEmpty then none else some t

/-- A line that begins with a keyword or mnemonic at a word, if it is one. -/
def keywordLine? (set : InstructionSet) (content : Token) (p : Piece) : Option Line.Kind :=
  let token := content.slice p.start p.stop
  let rest := (content.sliceFrom p.stop).trimmed
  match Directive.ofKeyword? token.text with
  | some d => some (.command { directive := d, keyword := token, arguments := d.splitArguments rest })
  | none =>
    if set.isMnemonic token.text then
      let (base, forced) := splitWidthSuffix token.text
      some (.instruction { mnemonic := token, base := lower base, forced, operand := rest })
    else
      none

/-- What a line is, judged by its pieces from the first one on. -/
def classifyPieces (set : InstructionSet) (content : Token) : List Piece → Option Token × Line.Kind
  | [] => (none, .unknown)
  | p :: ps =>
    match p.kind with
    | .word =>
      match keywordLine? set content p with
      | some kind => (labelBefore content p.start, kind)
      | none => classifyPieces set content ps
    | .equal =>
      match labelBefore content p.start with
      | some name => (none, .variable { name, expression := (content.sliceFrom p.stop).trimmed })
      | none => (none, .unknown)
    | _ => classifyPieces set content ps

/-- The label of a line and what the line is. -/
def classifyContent (set : InstructionSet) (content : Token) : Option Token × Line.Kind :=
  classifyPieces set content (Piece.scan content.text.toList)

/-- How a comment is attached. -/
inductive CommentMark where
  /-- To the next line with content, if no blank line comes between. -/
  | plain
  /-- To the next line with content, across blank lines. -/
  | sticky
  /-- To nothing. -/
  | detached
  deriving DecidableEq, Repr

def readComment : List Char → CommentMark × String
  | '+' :: cs => (.sticky, String.ofList (trim cs))
  | '-' :: cs => (.detached, String.ofList (trim cs))
  | cs => (.plain, String.ofList (trim cs))

/-- Comments that wait for the next line with content. -/
structure PendingComment where
  text : Option String
  sticky : Bool
  deriving Repr

def joinComment (before : Option String) (text : String) : Option String :=
  match before with
  | some s => some (s ++ "\n" ++ text)
  | none => some text

/-- The waiting comments after a line without content. -/
def PendingComment.afterBlank (p : PendingComment) : Option (CommentMark × String) → PendingComment
  | none => if p.sticky then p else { p with text := none }
  | some (.detached, _) => ⟨none, false⟩
  | some (mark, text) => ⟨joinComment p.text text, p.sticky || mark == .sticky⟩

def PendingComment.attach (p : PendingComment) : Option (CommentMark × String) → Option String
  | none | some (.detached, _) => p.text
  | some (_, text) => if text.isEmpty then p.text else joinComment p.text text

/-- The lines with content among lines of a source, given the comments that wait. -/
def classifyLines (set : InstructionSet) (source : SourceId) (pending : PendingComment) :
    List SourceLine → List ClassifiedLine
  | [] => []
  | l :: ls =>
    let (text, comment) := splitComment .outside l.text
    let mark := comment.map readComment
    let content := (Token.mk source l.number 0 l.offset (String.ofList text)).trimmed
    if content.isEmpty then
      classifyLines set source (pending.afterBlank mark) ls
    else
      let (label, kind) := classifyContent set content
      ⟨content, label, kind, pending.attach mark⟩ :: classifyLines set source ⟨none, false⟩ ls

def classifySource (set : InstructionSet) (source : SourceId) (file : SourceFile) : List ClassifiedLine :=
  classifyLines set source ⟨none, false⟩ file.lines

def ClassifiedLine.toLine (l : ClassifiedLine) (scope : ScopeId) : Line :=
  { origin := l.origin, scope, label := l.label, comment := l.comment, kind := l.kind }

end CrossAssembler
