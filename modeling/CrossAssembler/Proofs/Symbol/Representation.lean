import CrossAssembler.Proofs.Symbol.Release

/-!
# The indexes of the symbol table agree

A table keeps its labels, the names and nameless labels of every scope, the tree of global names, the
references of every source, and the numbers free for reuse. All of these say the same about which labels
are shown.

Principal results: `Operation.valid` — every operation keeps a table valid; `indexes_agree` — so it is
after any number of them.
-/

namespace CrossAssembler.SymbolTable

variable {t t' : SymbolTable} {h : Handles}

/-! ## Operations -/

/-- What can be done to a table with live handles, and which are live then. -/
inductive Operation : SymbolTable → Handles → SymbolTable → Handles → Prop
  | addScope {t : SymbolTable} {h : Handles} (kind : ScopeKind) {parent : ScopeId} (source : SourceId)
      (live : parent ∈ h.scopes) :
      Operation t h (t.addScope kind parent source).2
        { h with scopes := insert (t.addScope kind parent source).1 h.scopes }
  | createLabel {t t' : SymbolTable} {h : Handles} {token : Token} {scope : ScopeId} {kind : LabelKind}
      {allow : Bool} {id : LabelId} (live : scope ∈ h.scopes)
      (made : t.createLabel token scope kind allow = .ok (id, t')) :
      Operation t h t' { h with labels := insert id h.labels }
  | unbind {t : SymbolTable} {h : Handles} {id : LabelId} (live : id ∈ h.labels) :
      Operation t h (t.unbind id) h
  | rebind {t t' : SymbolTable} {h : Handles} {id : LabelId} (live : id ∈ h.labels)
      (shown : t.rebind id = .ok t') : Operation t h t' h
  | setValue {t : SymbolTable} {h : Handles} {id : LabelId} (value : Option Value) (live : id ∈ h.labels) :
      Operation t h (t.setValue id value).2 h
  | addReference {t : SymbolTable} {h : Handles} (source : SourceId) (name : String) :
      Operation t h (t.addReference source name) h
  | defineMacro {t t' : SymbolTable} {h : Handles} {m : MacroDefinition} (made : t.defineMacro m = .ok t') :
      Operation t h t' h
  | addGroup {t : SymbolTable} {h : Handles} (g : DataGroup) : Operation t h (t.addGroup g) h
  | clearFile {t : SymbolTable} {h : Handles} (source : SourceId) : Operation t h (t.clearFile source) h
  | releaseFile {t : SymbolTable} {h : Handles} (source : SourceId) :
      Operation t h (t.releaseFile source) (t.afterRelease source h)

/-- The tables that operations with live handles lead to from an empty one. -/
inductive Reached : SymbolTable → Handles → Prop
  | empty : Reached .empty ⟨∅, {globalScope}⟩
  | step {t t' : SymbolTable} {h h' : Handles} : Reached t h → Operation t h t' h' → Reached t' h'

/-! ## All operations -/

/-- Every operation with live handles keeps a table valid. -/
theorem Operation.valid {h' : Handles} (hop : Operation t h t' h') (hv : t.Valid h) : t'.Valid h' := by
  cases hop with
  | addScope kind source live => exact hv.addScope kind _ source
  | createLabel live made => exact hv.createLabel live made
  | unbind live => exact hv.unbind _
  | rebind live shown => exact hv.rebind live shown
  | setValue value live => exact hv.setValue live value
  | addReference source name => exact hv.addReference source name
  | defineMacro made => exact hv.defineMacro made
  | addGroup g => exact hv.addGroup g
  | clearFile source => exact hv.clearFile source
  | releaseFile source => exact hv.releaseFile source

theorem Reached.valid (hr : Reached t h) : t.Valid h := by
  induction hr with
  | empty => exact valid_empty
  | step _ hop ih => exact hop.valid ih

/-- What the indexes of a table have in common, with the numbers in use. -/
structure Agreement (t : SymbolTable) (h : Handles) : Prop where
  /-- A name is found in a scope exactly when a label of that name is shown there. -/
  names : ∀ scope name id, t.lookupIn? scope name = some id ↔ ShownAs (t.label id) scope name
  unique : ∀ scope name id id', ShownAs (t.label id) scope name → ShownAs (t.label id') scope name → id = id'
  /-- The nameless labels shown in a scope are listed there once each, in the order of their places. -/
  nameless : ∀ scope, (∀ e, e ∈ (t.scope scope).nameless ↔ ShownAt (t.label e.label) scope e.place) ∧
    ((t.scope scope).nameless.map fun e => e.label).Nodup ∧ (t.scope scope).nameless.Pairwise NotAfter
  /-- The tree marks exactly the names of the global scope as defined. -/
  defined : ∀ name, t.tree.isDefined name = (t.lookupIn? globalScope name).isSome
  counted : ∀ name, (t.tree.nodes.getD name .bare).references = occurrences t.references name
  /-- Only vacant numbers are free for reuse, each once, and all others are in use. -/
  freeLabels : t.freeLabels.Nodup ∧ (∀ id ∈ t.freeLabels, id < t.labels.size ∧ t.label id = Label.vacant) ∧
    ∀ id, id ∈ h.labels ↔ id < t.labels.size ∧ id ∉ t.freeLabels
  freeScopes : t.freeScopes.Nodup ∧ (∀ id ∈ t.freeScopes, id < t.scopes.size ∧ t.scope id = Scope.vacant) ∧
    ∀ id, id ∈ h.scopes ↔ id < t.scopes.size ∧ id ∉ t.freeScopes

/-- **All indexes agree**, whatever operations with live handles lead to a table. -/
theorem indexes_agree (hreached : Reached t h) : Agreement t h := by
  have hv := hreached.valid
  refine
    { names := hv.indexed.names
      unique := fun scope name id id' hid hid' => ?_
      nameless := fun scope => ⟨hv.indexed.nameless scope, hv.indexed.once scope, hv.indexed.sorted scope⟩
      defined := fun name => ?_
      counted := hv.counted
      freeLabels := ⟨hv.freeLabels, hv.vacantLabels, hv.labels⟩
      freeScopes := ⟨hv.freeScopes, hv.vacantScopes, hv.scopes⟩ }
  · have hfound := (hv.indexed.names scope name id).mpr hid
    rw [(hv.indexed.names scope name id').mpr hid'] at hfound
    exact (Option.some.inj hfound).symm
  · rw [LabelTree.isDefined_eq]
    exact hv.defined name

/-- A file has made a label and referred to it. -/
def madeTable : Except SymbolError SymbolTable := do
  let (_, t) ← (empty.addScope .file globalScope 5).2.createLabel ⟨5, 1, 0, 0, "a.b"⟩ 1 .label true
  return t.addReference 5 "a.b"

/-- The file has been released, and the number of its scope is in use again. -/
def reusedTable : Except SymbolError SymbolTable := do
  let t ← madeTable
  return ((t.releaseFile 5).addScope .call globalScope 6).2

theorem indexes_agree_reusedTable :
    ∃ t h, reusedTable = .ok t ∧ t.freeLabels = [0] ∧ t.freeScopes = [] ∧ Reached t h ∧ Agreement t h := by
  have hfree : reusedTable.toOption.map (fun t => (t.freeLabels, t.freeScopes)) = some ([0], []) := by
    decide +kernel
  cases hmade : (empty.addScope .file globalScope 5).2.createLabel ⟨5, 1, 0, 0, "a.b"⟩ 1 .label true with
  | error e =>
    have hnone : reusedTable = .error e := by
      unfold reusedTable madeTable
      rw [hmade]
      rfl
    rw [hnone] at hfree
    cases hfree
  | ok r =>
    obtain ⟨id, t⟩ := r
    have hsome : reusedTable = .ok (((t.addReference 5 "a.b").releaseFile 5).addScope .call globalScope 6).2 := by
      unfold reusedTable madeTable
      rw [hmade]
      rfl
    rw [hsome] at hfree
    obtain ⟨hlabels, hscopes⟩ := Prod.mk.inj (Option.some.inj hfree)
    have hopened := Reached.empty.step (.addScope .file 5 valid_empty.root)
    have hreferred := (hopened.step (.createLabel (.inl rfl) hmade)).step (.addReference 5 "a.b")
    have hreleased := hreferred.step (.releaseFile 5)
    have hreached := hreleased.step (.addScope .call 6 hreleased.valid.root)
    exact ⟨_, _, hsome, hlabels, hscopes, hreached, indexes_agree hreached⟩

end CrossAssembler.SymbolTable
