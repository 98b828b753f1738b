import CrossAssembler.Assembly.Declaration

/-!
# What unknown lines are

Once all macros are known, a line that is nothing else is a macro call, a label or an error. A macro
call gets a copy of the macro's lines in a scope of its own.

* `Assembly.resolve` — settles what lines are.
-/

namespace CrossAssembler.Assembly

/-- Makes the labels for the parameters of a call; `none` when one cannot be made. -/
def defineParameters (s : Assembly) (id : LineId) (scope : ScopeId) (token : Token) :
    List String → Option (List LabelId) × Assembly
  | [] => (some [], s)
  | name :: names =>
    match s.defineLabel id { token with text := name } scope .parameter false with
    | (none, s) => (none, s)
    | (some label, s) =>
      match s.defineParameters id scope token names with
      | (none, s) => (none, s)
      | (some labels, s) => (some (label :: labels), s)

/-- Copies the lines of a macro into a scope, one level deeper, and settles what they are. -/
def instantiate (settle : Assembly → List Item → Assembly) (s : Assembly) (body : List LineId)
    (scope : ScopeId) : List Item × Assembly :=
  let (ids, lines) := s.lines.instantiate body scope
  let (items, s) := { s with lines }.openCall.arrange ids
  (items, (settle s items).closeCall)

/-- Expands a macro call. The scope of the call belongs to the source of the call. -/
def expand (settle : Assembly → List Item → Assembly) (s : Assembly) (id : LineId) (name : Token)
    (count : Nat) : Assembly :=
  let parent := (s.line id).scope
  match s.symbols.macro? name.text with
  | none => s.fail id name.span s!"unknown macro '{name.text}'"
  | some m =>
    if count ≠ m.parameters.length then
      s.fail id name.span s!"macro '{m.name}' expects {m.parameters.length} argument(s), found {count}"
    else if expansionLimit ≤ s.depth then
      s.fail id name.span s!"macro '{m.name}' is expanded too deeply"
    else
      let (scope, symbols) := s.symbols.addScope .call parent (s.symbols.scope parent).source
      match { s with symbols }.defineParameters id scope m.token m.parameters with
      | (none, s) => s
      | (some parameters, s) =>
        let (items, s) := instantiate settle s m.body scope
        s.modifyLine id fun l =>
          match l.kind with
          | .call part => { l with kind := .call { part with expansion := some ⟨parameters, items⟩ } }
          | _ => l

/-- The first word of a text that names a macro. -/
def macroWord? (s : Assembly) (text : String) : Option Piece :=
  ((Piece.words text.toList).find? fun w => (s.symbols.macro? w.1).isSome).map fun w => w.2

def resolveUnknown (settle : Assembly → List Item → Assembly) (s : Assembly) (id : LineId) : Assembly :=
  let origin := (s.line id).origin
  match s.macroWord? origin.text with
  | some word =>
    let name := origin.slice word.start word.stop
    let arguments := (origin.sliceFrom word.stop).splitTopLevel ','
    let s := s.modifyLine id fun l =>
      { l with label := labelBefore origin word.start, kind := .call { name, arguments } }
    expand settle (s.defineLineLabel id) id name arguments.length
  | none =>
    let label := (labelBefore origin origin.text.utf8ByteSize).filter fun label =>
      (NameScope.ofName? label.text).isSome
    match label with
    | some label =>
      (s.modifyLine id fun l => { l with label := some label, kind := .label }).defineLineLabel id
    | none =>
      let word := origin.splitFirstWord.1
      s.fail id word.span s!"unknown instruction, directive or macro '{word.text}'"

/-- Settles what a line is, and the lines of an included file with it. -/
def resolveLine (settle resolve : Assembly → List Item → Assembly) (s : Assembly) (id : LineId) :
    Assembly :=
  let line := s.line id
  if line.isSkipped then
    s
  else
    match line.kind with
    | .unknown => resolveUnknown settle s id
    | .command part =>
      match part.state with
      | .included _ items => resolve s items
      | _ => s
    | _ => s

/-- Settles what lines are, as deep as they may be nested. The lines of a call are declared first. -/
def resolveWithin : Budget → Assembly → List Item → Assembly
  | .spent, s, _ => s
  | .left calls files, s, items =>
    items.foldl (fun s item =>
      if s.stopped then s
      else resolveLine (fun s items => resolveWithin calls (declareWithin calls s items) items)
        (resolveWithin files) s item.id) s

def resolve (s : Assembly) (items : List Item) : Assembly := resolveWithin .full s items

end CrossAssembler.Assembly
