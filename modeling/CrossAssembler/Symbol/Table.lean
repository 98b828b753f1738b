import CrossAssembler.Symbol.DataGroup
import CrossAssembler.Symbol.LabelTree

/-!
# Symbols

Labels live in scopes. A label can be hidden and shown again; while it is hidden no search finds it.

* `SymbolTable.unbind`, `rebind` — hide a label and show it again.
-/

namespace CrossAssembler

/-- What a label stands for. -/
inductive LabelKind where
  /-- The address of the line it is written on. -/
  | label
  /-- A constant, or a row of an enumeration or data group. -/
  | defined
  /-- A variable, which may be assigned again. -/
  | variable
  /-- A parameter of one macro call. -/
  | parameter
  | unresolved
  deriving DecidableEq, Repr

/-- What a scope belongs to. -/
inductive ScopeKind where
  | global
  | file
  /-- One macro call. -/
  | call
  /-- One iteration of a repetition. -/
  | iteration
  deriving DecidableEq, Repr

structure Label where
  name : String
  reach : NameScope
  scope : ScopeId
  source : SourceId
  token : Token
  value : Option Value := none
  kind : LabelKind
  doc : Option String := none
  /-- Whether searches find it. -/
  bound : Bool := false
  deriving Repr

def Label.vacant : Label :=
  { name := "", reach := .global, scope := globalScope, source := noSource,
    token := ⟨noSource, 0, 0, 0, ""⟩, kind := .label }

def Label.word? (l : Label) : Option Int64 := l.value.bind fun v => v.toWord.toOption

/-- A nameless label and its place. -/
structure NamelessEntry where
  line : Nat
  column : Nat
  label : LabelId
  deriving DecidableEq, Repr

def placeBefore (a b : Nat × Nat) : Bool := a.1 < b.1 || (a.1 == b.1 && a.2 < b.2)

def NamelessEntry.place (e : NamelessEntry) : Nat × Nat := (e.line, e.column)

/-- A scope with the labels that searches find in it. -/
structure Scope where
  kind : ScopeKind
  parent : Option ScopeId
  source : SourceId
  names : Std.TreeMap String LabelId := ∅
  /-- The nameless labels in the order of their places. -/
  nameless : List NamelessEntry := []

def Scope.vacant : Scope := { kind := .global, parent := none, source := noSource }

/-- Why a symbol cannot be defined. -/
inductive SymbolError where
  | duplicate (name : String) (previous : Token)
  | illegalName (name : String)
  | namelessNotAllowed (name : String)
  | duplicateMacro (name : String) (previous : Token)
  deriving DecidableEq, Repr

namespace SymbolError

def message : SymbolError → String
  | duplicate name _ => s!"label '{name}' is already defined"
  | illegalName name => s!"'{name}' is not a valid label name"
  | namelessNotAllowed name => s!"nameless label '{name}' is not allowed here"
  | duplicateMacro name _ => s!"macro '{name}' is already defined"

/-- The first definition, for a name that is defined twice. -/
def previous? : SymbolError → Option Token
  | duplicate _ previous | duplicateMacro _ previous => some previous
  | _ => none

end SymbolError

/-- Labels, scopes, macros and data groups. Numbers free for reuse are listed with the next one first. -/
structure SymbolTable where
  labels : Array Label
  scopes : Array Scope
  tree : LabelTree
  macros : List MacroDefinition
  groups : List DataGroup
  /-- The global names each source refers to. -/
  references : Std.TreeMap SourceId (Array String)
  freeLabels : List LabelId
  freeScopes : List ScopeId

namespace SymbolTable

def empty : SymbolTable :=
  { labels := #[], scopes := #[Scope.vacant], tree := .empty, macros := [], groups := [],
    references := ∅, freeLabels := [], freeScopes := [] }

def scope (t : SymbolTable) (id : ScopeId) : Scope := t.scopes[id]?.getD Scope.vacant

def label (t : SymbolTable) (id : LabelId) : Label := t.labels[id]?.getD Label.vacant

def modifyLabel (t : SymbolTable) (id : LabelId) (f : Label → Label) : SymbolTable :=
  { t with labels := t.labels.modify id f }

def modifyScope (t : SymbolTable) (id : ScopeId) (f : Scope → Scope) : SymbolTable :=
  { t with scopes := t.scopes.modify id f }

def addScope (t : SymbolTable) (kind : ScopeKind) (parent : ScopeId) (source : SourceId) :
    ScopeId × SymbolTable :=
  match t.freeScopes with
  | id :: free =>
    let t := t.modifyScope id fun s => { s with kind, parent := some parent, source }
    (id, { t with freeScopes := free })
  | [] => (t.scopes.size, { t with scopes := t.scopes.push { kind, parent := some parent, source } })

def lookupIn? (t : SymbolTable) (scope : ScopeId) (name : String) : Option LabelId :=
  (t.scope scope).names[name]?

/-- The scope that keeps a new name. Macro calls and iterations keep all their names; in a file, global
names go to the global scope. -/
def keeper (t : SymbolTable) (reach : NameScope) (scope : ScopeId) : ScopeId :=
  match (t.scope scope).kind, reach with
  | .file, .global => globalScope
  | _, _ => scope

/-- Puts a nameless label behind all that do not come after it. -/
def insertNameless (e : NamelessEntry) (es : List NamelessEntry) : List NamelessEntry :=
  es.takeWhile (fun o => !placeBefore e.place o.place) ++
    e :: es.dropWhile (fun o => !placeBefore e.place o.place)

def bind (t : SymbolTable) (id : LabelId) : SymbolTable :=
  let l := t.label id
  let t := match l.reach with
    | .nameless => t.modifyScope l.scope fun s =>
        { s with nameless := insertNameless ⟨l.token.line, l.token.column, id⟩ s.nameless }
    | _ =>
      let t := t.modifyScope l.scope fun s => { s with names := s.names.insert l.name id }
      if l.scope = globalScope then { t with tree := t.tree.insert l.name } else t
  t.modifyLabel id fun l => { l with bound := true }

def unbind (t : SymbolTable) (id : LabelId) : SymbolTable :=
  let l := t.label id
  if l.bound then
    let t := match l.reach with
      | .nameless => t.modifyScope l.scope fun s =>
          { s with nameless := s.nameless.filter fun e => e.label != id }
      | _ =>
        let t := t.modifyScope l.scope fun s =>
          if s.names[l.name]? = some id then { s with names := s.names.erase l.name } else s
        if l.scope = globalScope then { t with tree := t.tree.remove l.name } else t
    t.modifyLabel id fun l => { l with bound := false }
  else
    t

/-- Shows a hidden label again, unless another one has its name by now. -/
def rebind (t : SymbolTable) (id : LabelId) : Except SymbolError SymbolTable :=
  let l := t.label id
  if l.bound then
    .ok t
  else
    match l.reach, t.lookupIn? l.scope l.name with
    | .nameless, _ | _, none => .ok (t.bind id)
    | _, some other => .error (.duplicate l.name (t.label other).token)

def addLabel (t : SymbolTable) (l : Label) : LabelId × SymbolTable :=
  match t.freeLabels with
  | id :: free => (id, { t with labels := t.labels.setIfInBounds id l, freeLabels := free })
  | [] => (t.labels.size, { t with labels := t.labels.push l })

/-- Makes a label for a name seen from a scope, and shows it. -/
def createLabel (t : SymbolTable) (token : Token) (scope : ScopeId) (kind : LabelKind)
    (allowNameless : Bool) : Except SymbolError (LabelId × SymbolTable) :=
  match NameScope.ofName? token.text with
  | none => .error (.illegalName token.text)
  | some reach =>
    if reach = .nameless ∧ allowNameless = false then
      .error (.namelessNotAllowed token.text)
    else
      let home := t.keeper reach scope
      match reach, t.lookupIn? home token.text with
      | .nameless, _ | _, none =>
        let (id, t) := t.addLabel
          { name := token.text, reach, scope := home, source := token.source, token, kind }
        .ok (id, t.bind id)
      | _, some other => .error (.duplicate token.text (t.label other).token)

/-- The nearest label of a name on at most the given number of scopes, going outwards. -/
def findWithin (t : SymbolTable) (name : String) : Nat → ScopeId → Option LabelId
  | 0, _ => none
  | n + 1, scope =>
    match t.lookupIn? scope name with
    | some id => some id
    | none =>
      match (t.scope scope).parent with
      | some parent => t.findWithin name n parent
      | none => none

/-- The nearest label of a name, from a scope outwards. A way outwards has no more scopes than there
are. -/
def findLabel? (t : SymbolTable) (name : String) (scope : ScopeId) : Option LabelId :=
  t.findWithin name (t.scopes.size + 1) scope

/-- The scope whose nameless labels are seen from a scope. -/
def namelessHome (t : SymbolTable) (scope : ScopeId) : ScopeId :=
  if (t.scope scope).kind = .global then globalScope else scope

/-- The n-th nameless label strictly after or before a place. -/
def findNameless? (t : SymbolTable) (r : Reference) (scope : ScopeId) (line column : Nat) :
    Option LabelId :=
  let entries := (t.scope (t.namelessHome scope)).nameless
  let place := (line, column)
  match r with
  | .forward (n + 1) =>
    ((entries.dropWhile fun e => !placeBefore place e.place)[n]?).map fun e => e.label
  | .backward (n + 1) =>
    ((entries.takeWhile fun e => placeBefore e.place place).reverse[n]?).map fun e => e.label
  | _ => none

def resolve? (t : SymbolTable) (r : Reference) (scope : ScopeId) (line column : Nat) : Option LabelId :=
  match r with
  | .named name => t.findLabel? name scope
  | .forward _ | .backward _ => t.findNameless? r scope line column
  | .here => none

/-- Gives a label a value and tells whether it is another one than before. -/
def setValue (t : SymbolTable) (id : LabelId) (value : Option Value) : Bool × SymbolTable :=
  if (t.label id).value == value then
    (false, t)
  else
    (true, t.modifyLabel id fun l => { l with value })

/-- Records that a source refers to a global name. -/
def addReference (t : SymbolTable) (source : SourceId) (name : String) : SymbolTable :=
  if NameScope.ofName? name = some .global then
    { t with
      tree := t.tree.addReference name
      references := t.references.insert source ((t.references.getD source #[]).push name) }
  else
    t

def macro? (t : SymbolTable) (name : String) : Option MacroDefinition :=
  t.macros.find? fun m => m.name == name

def defineMacro (t : SymbolTable) (m : MacroDefinition) : Except SymbolError SymbolTable :=
  match t.macro? m.name with
  | some other => .error (.duplicateMacro m.name other.token)
  | none => .ok { t with macros := t.macros ++ [m] }

/-- Adds a group, in the place of one with the same owner. -/
def addGroup (t : SymbolTable) (g : DataGroup) : SymbolTable :=
  if t.groups.any fun o => o.owner == g.owner then
    { t with groups := t.groups.map fun o => if o.owner == g.owner then g else o }
  else
    { t with groups := t.groups ++ [g] }

def group? (t : SymbolTable) (owner : String) : Option DataGroup :=
  t.groups.find? fun g => g.owner == owner

/-- The labels that searches find in the global scope and in files, by name and then by source. -/
def publicLabels (t : SymbolTable) : List Label :=
  let visible := t.labels.toList.filter fun l =>
    l.bound && l.reach != .nameless &&
      ((t.scope l.scope).kind == .global || (t.scope l.scope).kind == .file)
  visible.mergeSort fun a b =>
    match compare a.name b.name with
    | .lt => true
    | .eq => a.source ≤ b.source
    | .gt => false

/-- The numbers of the labels that a test accepts. -/
def labelsWhere (t : SymbolTable) (p : Label → Bool) : List LabelId :=
  (List.range t.labels.size).filter fun id => p (t.label id)

/-- Forgets what a source has made: its labels and those of its scopes, its macros and data groups, and
its references. -/
def clearFile (t : SymbolTable) (source : SourceId) : SymbolTable :=
  let owned := t.labelsWhere fun l =>
    l.bound && (l.source == source || (t.scope l.scope).source == source)
  let t := owned.foldl unbind t
  let names := t.references.getD source #[]
  { t with
    scopes := t.scopes.map fun s => if s.source == source then { s with nameless := [] } else s
    macros := t.macros.filter fun m => m.source != source
    groups := t.groups.filter fun g => g.source != source
    tree := names.foldl LabelTree.releaseReference t.tree
    references := t.references.erase source }

def releaseLabel (t : SymbolTable) (id : LabelId) : SymbolTable :=
  let t := t.unbind id
  { t with labels := t.labels.setIfInBounds id Label.vacant, freeLabels := id :: t.freeLabels }

def releaseScope (t : SymbolTable) (id : ScopeId) : SymbolTable :=
  { t with scopes := t.scopes.setIfInBounds id Scope.vacant, freeScopes := id :: t.freeScopes }

/-- Forgets what a source has made and frees the numbers of its labels and scopes. A label of the global
scope belongs to the source that made it, any other to its scope. -/
def releaseFile (t : SymbolTable) (source : SourceId) : SymbolTable :=
  if source == (t.scope globalScope).source then
    t
  else
    let t := t.clearFile source
    let labels := t.labelsWhere fun l =>
      if l.scope = globalScope then l.source == source else (t.scope l.scope).source == source
    let t := labels.reverse.foldl releaseLabel t
    let scopes := (List.range t.scopes.size).filter fun id =>
      id != globalScope && (t.scope id).source == source
    scopes.reverse.foldl releaseScope t

end SymbolTable

end CrossAssembler
