import CrossAssembler.Assembly.Basic

/-!
# Labels of an assembly

* `Assembly.defineLabel` — makes a label for a line, or reports why not.
-/

namespace CrossAssembler.Assembly

/-- Whether a word is a mnemonic or a keyword. -/
def isReserved (s : Assembly) (name : String) : Bool :=
  s.instructions.isMnemonic name || (Directive.ofKeyword? name).isSome

def defineLabel (s : Assembly) (id : LineId) (token : Token) (scope : ScopeId) (kind : LabelKind)
    (allowNameless : Bool) : Option LabelId × Assembly :=
  if s.isReserved token.text then
    (none, s.fail id token.span s!"'{token.text}' is reserved and cannot be used as a label")
  else
    match s.symbols.createLabel token scope kind allowNameless with
    | .ok (label, symbols) =>
      (some label, { s with
        symbols
        recorders := s.recorders.map fun labels => label :: labels
        rowLabels :=
          if kind = .defined ∧ (s.line id).hasRows = true then (label, id) :: s.rowLabels
          else s.rowLabels })
    | .error e => (none, s.symbolError id e token.span)

def setDoc (s : Assembly) (label : LabelId) (doc : Option String) : Assembly :=
  { s with symbols := s.symbols.modifyLabel label fun l => { l with doc } }

/-- Makes the label written in front of a line, once. -/
def defineLineLabel (s : Assembly) (id : LineId) : Assembly :=
  let line := s.line id
  match line.label, line.labelId with
  | some token, none =>
    match s.defineLabel id token line.scope .label true with
    | (some label, s) =>
      (s.setDoc label line.comment).modifyLine id fun l => { l with labelId := some label }
    | (none, s) => s
  | _, _ => s

/-- Gives a label a value. A label other than a variable that gets another value asks for one more
pass; in the final pass it stays unsettled. -/
def setLabelValue (s : Assembly) (label : LabelId) (value : Option Value) : Assembly :=
  let old := s.symbols.label label
  let (changed, symbols) := s.symbols.setValue label value
  let s := { s with symbols }
  if changed && old.kind != .variable then
    let progress := { s.progress with changed := true }
    if s.pass.isFinal && old.value.isSome && value.isSome && progress.unsettled.isNone then
      { s with progress := { progress with unsettled := some old.token.span } }
    else
      { s with progress }
  else
    s

end CrossAssembler.Assembly
