import CrossAssembler.Proofs.Symbol.Closure
import CrossAssembler.Proofs.Symbol.Representation

/-!
# What is left when a source has been forgotten

Principal result: `cleared_clearFile` — forgetting a source takes out everything it has made, leaves everything
else as it was, and prunes the tree to the names still needed.
-/

namespace CrossAssembler

/-! ## Trees -/

namespace LabelTree

variable {t : LabelTree}

/-- Whether a tree lists every name below the one above it, and keeps none that is not needed. -/
structure Shaped (t : LabelTree) : Prop where
  linked : t.Linked none
  needed : t.Needed none

theorem shaped_empty : empty.Shaped := ⟨(shape_run []).1, (shape_run []).2⟩

theorem Shaped.apply (h : t.Shaped) (op : Operation) : (op.apply t).Shaped :=
  ⟨(shape_apply op h.linked h.needed).1, (shape_apply op h.linked h.needed).2⟩

theorem Shaped.releaseReferences (h : t.Shaped) (names : List String) :
    (names.foldl LabelTree.releaseReference t).Shaped := by
  induction names generalizing t with
  | nil => exact h
  | cons name names ih => exact ih (h.apply (.releaseReference name))

/-- The names of the tree are those that are marked and those above them. -/
theorem Shaped.contains_iff (h : t.Shaped) (name : String) :
    t.contains name = true ↔ ∃ user, t.marks user ≠ (false, 0) ∧ Above user name := by
  obtain ⟨bound, hbound⟩ := exists_bound t
  rw [LabelTree.contains_iff]
  constructor
  · exact exists_marked h.linked h.needed hbound
  · rintro ⟨user, hused, habove⟩
    exact mem_of_above h.linked habove (mem_of_marks hused)

end LabelTree

theorem occurrences_ne_zero {references : Std.TreeMap SourceId (Array String)} {name : String} :
    occurrences references name ≠ 0 ↔
      ∃ (source : SourceId) (names : Array String), references[source]? = some names ∧ name ∈ names := by
  unfold occurrences
  rw [ne_eq, List.sum_eq_zero_iff]
  constructor
  · intro h
    simp only [not_forall] at h
    obtain ⟨count, hcount, hne⟩ := h
    obtain ⟨⟨source, names⟩, hentry, rfl⟩ := List.mem_map.mp hcount
    exact ⟨source, names, Std.TreeMap.mem_toList_iff_getElem?_eq_some.mp hentry,
      Array.count_pos_iff.mp (Nat.pos_of_ne_zero hne)⟩
  · rintro ⟨source, names, hget, hname⟩ hall
    have hentry := Std.TreeMap.mem_toList_iff_getElem?_eq_some.mpr hget
    have hzero := hall _ (List.mem_map_of_mem hentry)
    exact Nat.ne_of_gt (Array.count_pos_iff.mpr hname) hzero

namespace SymbolTable

variable {t t' : SymbolTable} {h h' : Handles}
variable {source : SourceId} {id : LabelId}

/-! ## The tree of a table -/

theorem shaped_bind (ht : t.tree.Shaped) (id : LabelId) : (t.bind id).tree.Shaped := by
  rw [tree_bind]
  split
  · exact ht.apply (.insert _)
  · exact ht

theorem shaped_unbind (ht : t.tree.Shaped) (id : LabelId) : (t.unbind id).tree.Shaped := by
  rw [tree_unbind]
  split
  · exact ht.apply (.remove _)
  · exact ht

theorem shaped_unbindAll (ht : t.tree.Shaped) (ids : List LabelId) : (ids.foldl SymbolTable.unbind t).tree.Shaped := by
  induction ids generalizing t with
  | nil => exact ht
  | cons id ids ih => exact ih (shaped_unbind ht id)

theorem shaped_clearFile (ht : t.tree.Shaped) (source : SourceId) : (t.clearFile source).tree.Shaped := by
  change (((t.hideOwned source).references.getD source #[]).foldl LabelTree.releaseReference
    (t.hideOwned source).tree).Shaped
  rw [← Array.foldl_toList]
  exact (shaped_unbindAll ht _).releaseReferences _

theorem shaped_releaseFile (ht : t.tree.Shaped) (source : SourceId) : (t.releaseFile source).tree.Shaped := by
  have hlabels : ∀ (ids : List LabelId) (u : SymbolTable), u.tree.Shaped →
      (ids.foldl SymbolTable.releaseLabel u).tree.Shaped := by
    intro ids
    induction ids with
    | nil => exact fun _ hu => hu
    | cons id ids ih => exact fun u hu => ih _ (shaped_unbind hu id)
  have hscopes : ∀ (ids : List ScopeId) (u : SymbolTable), u.tree.Shaped →
      (ids.foldl SymbolTable.releaseScope u).tree.Shaped := by
    intro ids
    induction ids with
    | nil => exact fun _ hu => hu
    | cons id ids ih => exact fun u hu => ih (u.releaseScope id) hu
  unfold SymbolTable.releaseFile
  split
  · exact ht
  · exact hscopes _ _ (hlabels _ _ (shaped_clearFile ht source))

theorem Operation.shaped (hop : Operation t h t' h') (ht : t.tree.Shaped) : t'.tree.Shaped := by
  cases hop with
  | addScope kind source live =>
    unfold SymbolTable.addScope
    split <;> exact ht
  | createLabel live made =>
    obtain ⟨l, -, -, -, -, rfl⟩ := createLabel_cases made
    refine shaped_bind ?_ _
    unfold addLabel
    split <;> exact ht
  | unbind live => exact shaped_unbind ht _
  | rebind live shown =>
    unfold SymbolTable.rebind at shown
    simp only at shown
    split at shown
    · cases shown
      exact ht
    split at shown
    · cases shown
      exact shaped_bind ht _
    · cases shown
      exact shaped_bind ht _
    · cases shown
  | setValue value live =>
    unfold SymbolTable.setValue
    split <;> exact ht
  | addReference source name =>
    unfold SymbolTable.addReference
    split
    · exact ht.apply (.addReference name)
    · exact ht
  | defineMacro made =>
    unfold SymbolTable.defineMacro at made
    split at made
    · cases made
    · cases made
      exact ht
  | addGroup g =>
    unfold SymbolTable.addGroup
    split <;> exact ht
  | clearFile source => exact shaped_clearFile ht source
  | releaseFile source => exact shaped_releaseFile ht source

/-- The tables that operations with live handles lead to from an empty one, where labels may get comments in
between. -/
inductive Attained : SymbolTable → Handles → Prop
  | empty : Attained .empty ⟨∅, {globalScope}⟩
  | step {t t' : SymbolTable} {h h' : Handles} : Attained t h → Operation t h t' h' → Attained t' h'
  | document {t : SymbolTable} {h : Handles} {id : LabelId} (doc : Option String) (live : id ∈ h.labels) :
      Attained t h → Attained (t.modifyLabel id fun l => { l with doc }) h

theorem Attained.valid (ha : Attained t h) : t.Valid h := by
  induction ha with
  | empty => exact valid_empty
  | step _ hop ih => exact hop.valid ih
  | document doc live _ ih => exact ih.modifyLabel ((ih.labels _).mp live).2 fun _ => ⟨rfl, rfl, rfl, rfl, rfl⟩

theorem Attained.shaped (ha : Attained t h) : t.tree.Shaped := by
  induction ha with
  | empty => exact LabelTree.shaped_empty
  | step _ hop ih => exact hop.shaped ih
  | document _ _ _ ih => exact ih

/-! ## Labels and scopes without a source -/

/-- Whether a source has made a label, or the scope that keeps it. -/
def Concerns (t : SymbolTable) (source : SourceId) (id : LabelId) : Prop :=
  (t.label id).source = source ∨ (t.scope (t.label id).scope).source = source

theorem mem_owned :
    id ∈ t.labelsWhere (fun l => l.bound && (l.source == source || (t.scope l.scope).source == source)) ↔
      (t.label id).bound = true ∧ t.Concerns source id := by
  unfold labelsWhere Concerns
  rw [List.mem_filter, List.mem_range, Bool.and_eq_true, Bool.or_eq_true, beq_iff_eq, beq_iff_eq]
  refine and_iff_right_of_imp fun hall => ?_
  by_contra hle
  rw [SymbolTable.label, Array.getElem?_eq_none (Nat.le_of_not_lt hle)] at hall
  cases hall.1

/-- A label that was shown and concerns the source is hidden; it keeps everything else, and so do all other
labels. -/
theorem label_clearFile_of_concerned (hid : t.Concerns source id) :
    (t.clearFile source).label id = { t.label id with bound := false } := by
  change (t.hideOwned source).label id = _
  unfold hideOwned
  rw [label_unbindAll]
  split
  · rfl
  · rename_i hnot
    have hhidden : (t.label id).bound = false := Bool.eq_false_iff.mpr fun hbound => hnot (mem_owned.mpr ⟨hbound, hid⟩)
    rw [← hhidden]

theorem label_clearFile_of_other (hid : ¬ t.Concerns source id) : (t.clearFile source).label id = t.label id := by
  change (t.hideOwned source).label id = _
  unfold hideOwned
  rw [label_unbindAll, if_neg fun hmem => hid (mem_owned.mp hmem).2]

theorem Valid.nameless_unbind (hv : t.Valid h) (id : LabelId) (scope : ScopeId) :
    ((t.unbind id).scope scope).nameless = (t.scope scope).nameless.filter fun e => e.label != id := by
  rw [SymbolTable.nameless_unbind]
  split
  · rfl
  rename_i hnot
  refine (List.filter_eq_self.mpr fun e he => ?_).symm
  obtain ⟨hbound, hreach, hhome, -⟩ := (hv.indexed.nameless scope e).mp he
  rw [bne_iff_ne]
  rintro rfl
  exact hnot ⟨hbound, hreach, hhome.symm⟩

theorem Valid.nameless_unbindAll (hv : t.Valid h) (ids : List LabelId) (scope : ScopeId) :
    ((ids.foldl SymbolTable.unbind t).scope scope).nameless =
      (t.scope scope).nameless.filter fun e => e.label ∉ ids := by
  induction ids generalizing t with
  | nil => exact (List.filter_eq_self.mpr fun _ _ => by simp).symm
  | cons id ids ih =>
    rw [List.foldl_cons, ih (hv.unbind id), hv.nameless_unbind, List.filter_filter]
    refine List.filter_congr fun e _ => ?_
    by_cases heq : e.label = id <;> simp [heq]

/-- The nameless labels of a scope that concern the source are gone, the others are as they were. -/
theorem Valid.nameless_clearFile (hv : t.Valid h) (source : SourceId) {scope : ScopeId}
    (hscope : (t.scope scope).source ≠ source) :
    ((t.clearFile source).scope scope).nameless =
      (t.scope scope).nameless.filter fun e => (t.label e.label).source != source := by
  rw [scope_clearFile hv]
  unfold hideOwned
  rw [hv.nameless_unbindAll]
  refine List.filter_congr fun e he => ?_
  obtain ⟨hbound, -, hhome, -⟩ := (hv.indexed.nameless scope e).mp he
  rw [Bool.eq_iff_iff, decide_eq_true_iff, mem_owned, bne_iff_ne, Concerns, hhome]
  exact not_congr ⟨fun hall => hall.2.resolve_right hscope, fun hsource => ⟨hbound, .inl hsource⟩⟩

theorem kind_unbind (t : SymbolTable) (id : LabelId) (scope : ScopeId) :
    ((t.unbind id).scope scope).kind = (t.scope scope).kind := by
  by_cases hbound : (t.label id).bound = true
  · by_cases hreach : (t.label id).reach = .nameless
    · rw [scope_unbind_of_nameless t id hbound hreach, scope_modifyScope]
      split <;> rfl
    · rw [scope_unbind_of_named t id hbound hreach, scope_modifyScope]
      split
      · split <;> rfl
      · rfl
  · rw [unbind_of_hidden t id (Bool.eq_false_iff.mpr hbound)]

theorem Valid.frame_clearFile (hv : t.Valid h) (source : SourceId) (scope : ScopeId) :
    ((t.clearFile source).scope scope).kind = (t.scope scope).kind ∧
      ((t.clearFile source).scope scope).parent = (t.scope scope).parent ∧
      ((t.clearFile source).scope scope).source = (t.scope scope).source := by
  have hkept : ∀ (ids : List LabelId) (u : SymbolTable),
      ((ids.foldl SymbolTable.unbind u).scope scope).kind = (u.scope scope).kind ∧
        ((ids.foldl SymbolTable.unbind u).scope scope).parent = (u.scope scope).parent := by
    intro ids
    induction ids with
    | nil => exact fun _ => ⟨rfl, rfl⟩
    | cons id ids ih =>
      intro u
      rw [List.foldl_cons, (ih _).1, (ih _).2]
      exact ⟨kind_unbind u id scope, (keeps_unbind u id).parent scope⟩
  refine ⟨?_, ?_, source_clearFile hv source scope⟩
  · rw [scope_clearFile hv]
    exact (hkept _ t).1
  · rw [scope_clearFile hv]
    exact (hkept _ t).2

theorem references_clearFile (t : SymbolTable) (source : SourceId) :
    (t.clearFile source).references = t.references.erase source := by
  have hkept : ∀ (ids : List LabelId) (u : SymbolTable), (ids.foldl SymbolTable.unbind u).references = u.references := by
    intro ids
    induction ids with
    | nil => exact fun _ => rfl
    | cons id ids ih => exact fun u => (ih _).trans (references_unbind u id)
  change (t.hideOwned source).references.erase source = _
  unfold hideOwned
  rw [hkept]

theorem macros_unbindAll (ids : List LabelId) (t : SymbolTable) :
    (ids.foldl SymbolTable.unbind t).macros = t.macros ∧ (ids.foldl SymbolTable.unbind t).groups = t.groups := by
  induction ids generalizing t with
  | nil => exact ⟨rfl, rfl⟩
  | cons id ids ih =>
    rw [List.foldl_cons, (ih _).1, (ih _).2]
    unfold SymbolTable.unbind
    simp only
    split
    · split
      · exact ⟨rfl, rfl⟩
      · split <;> exact ⟨rfl, rfl⟩
    · exact ⟨rfl, rfl⟩

/-- The names of the tree of a valid table: those shown in the global scope or referred to, and those above
them. -/
theorem Valid.contains_iff (hv : t.Valid h) (ht : t.tree.Shaped) (name : String) :
    t.tree.contains name = true ↔ ∃ user, ((∃ id, ShownAs (t.label id) globalScope user) ∨
      ∃ (source : SourceId) (names : Array String), t.references[source]? = some names ∧ user ∈ names) ∧
      Above user name := by
  rw [ht.contains_iff]
  refine exists_congr fun user => and_congr_left fun _ => ?_
  rw [ne_eq, Prod.ext_iff, not_and_or, hv.defined, hv.counted, ← ne_eq, ← ne_eq, occurrences_ne_zero, ne_eq,
    Bool.not_eq_false, Option.isSome_iff_exists]
  simp only [hv.indexed.names]

/-! ## Forgetting a source -/

/-- Whether one source, and nothing else, has been taken out of a table. -/
structure Cleared (source : SourceId) (t t' : SymbolTable) : Prop where
  /-- No label of the source, or of one of its scopes, is shown any more. -/
  hidden : ∀ id, (t'.label id).bound = true →
    (t'.label id).source ≠ source ∧ (t'.scope (t'.label id).scope).source ≠ source
  /-- A label that does not concern the source is as it was, and is found as it was. -/
  kept : ∀ id, (t.label id).source ≠ source → (t.scope (t.label id).scope).source ≠ source →
    t'.label id = t.label id ∧ ∀ scope name, t'.lookupIn? scope name = some id ↔ t.lookupIn? scope name = some id
  /-- A label that does keeps everything but whether it is shown. -/
  values : ∀ id, { t'.label id with bound := (t.label id).bound } = t.label id
  scopes : ∀ scope, (t'.scope scope).kind = (t.scope scope).kind ∧ (t'.scope scope).parent = (t.scope scope).parent ∧
    (t'.scope scope).source = (t.scope scope).source
  /-- The nameless labels of other scopes keep their order. -/
  nameless : ∀ scope, (t.scope scope).source ≠ source →
    (t'.scope scope).nameless = (t.scope scope).nameless.filter fun e => (t.label e.label).source != source
  /-- A scope of the source has no nameless labels. -/
  emptied : ∀ scope, (t.scope scope).source = source → (t'.scope scope).nameless = []
  macros : t'.macros = t.macros.filter fun m => m.source != source
  groups : t'.groups = t.groups.filter fun g => g.source != source
  references : ∀ other : SourceId, t'.references[other]? = if other = source then none else t.references[other]?
  /-- The tree holds the names shown in the global scope or referred to, the names above them, and no others. -/
  tree : ∀ name, t'.tree.contains name = true ↔ ∃ user, ((∃ id, ShownAs (t'.label id) globalScope user) ∨
    ∃ (other : SourceId) (names : Array String), t'.references[other]? = some names ∧ user ∈ names) ∧ Above user name

/-- **Forgetting a source is complete and touches nothing else**, whatever has been done to the table. -/
theorem cleared_clearFile (hattained : Attained t h) (source : SourceId) : Cleared source t (t.clearFile source) := by
  have hv := hattained.valid
  have hc := hv.clearFile source
  have hframe := hv.frame_clearFile source
  have hother : ∀ id, (t.label id).source ≠ source → (t.scope (t.label id).scope).source ≠ source →
      ¬ t.Concerns source id := fun id hlabel hscope hid => hid.elim hlabel hscope
  refine
    { hidden := fun id hbound => ?_
      kept := fun id hlabel hscope => ⟨label_clearFile_of_other (hother id hlabel hscope), fun scope name => ?_⟩
      values := fun id => ?_
      scopes := hframe
      nameless := fun scope hscope => hv.nameless_clearFile source hscope
      emptied := fun scope hscope => ?_
      macros := congrArg (List.filter _) (macros_unbindAll _ t).1
      groups := congrArg (List.filter _) (macros_unbindAll _ t).2
      references := fun other => ?_
      tree := hc.contains_iff (shaped_clearFile hattained.shaped source) }
  · by_cases hid : t.Concerns source id
    · rw [label_clearFile_of_concerned hid] at hbound
      cases hbound
    · rw [label_clearFile_of_other hid, (hframe _).2.2]
      exact not_or.mp hid
  · rw [hc.indexed.names, hv.indexed.names, label_clearFile_of_other (hother id hlabel hscope)]
  · by_cases hid : t.Concerns source id
    · rw [label_clearFile_of_concerned hid]
    · rw [label_clearFile_of_other hid]
  · refine List.eq_nil_iff_forall_not_mem.mpr fun e he => ?_
    obtain ⟨hbound, -, hhome, -⟩ := (hc.indexed.nameless scope e).mp he
    by_cases hid : t.Concerns source e.label
    · rw [label_clearFile_of_concerned hid] at hbound
      cases hbound
    · rw [label_clearFile_of_other hid] at hhome
      exact hid (.inr (hhome.symm ▸ hscope))
  · rw [references_clearFile, Std.TreeMap.getElem?_erase]
    by_cases heq : other = source
    · rw [if_pos heq, if_pos (heq ▸ Std.ReflOrd.compare_self)]
    · rw [if_neg heq, if_neg fun hcompare => heq (Std.LawfulEqOrd.eq_of_compare hcompare).symm]

/-- Two files have made a label each, and the first refers to a name above the label of the second. -/
def sharedTable : Except SymbolError SymbolTable := do
  let opened := ((empty.addScope .file globalScope 4).2.addScope .file globalScope 5).2
  let (_, t) ← opened.createLabel ⟨4, 1, 0, 0, "start"⟩ 1 .label true
  let (_, t) ← t.createLabel ⟨5, 1, 0, 0, "sprite.x"⟩ 2 .label true
  return t.addReference 4 "sprite"

/-- Without the second file the name above its label stays, since the first file refers to it. -/
theorem cleared_sharedTable : ∃ t h, sharedTable = .ok t ∧ Attained t h ∧ Cleared 5 t (t.clearFile 5) ∧
      ["start", "sprite", "sprite.x"].map (t.clearFile 5).tree.contains = [true, true, false] := by
  have hnames : sharedTable.toOption.map (fun t =>
      ["start", "sprite", "sprite.x"].map (t.clearFile 5).tree.contains) = some [true, true, false] := by
    decide +kernel
  have hopened := (Attained.empty.step (.addScope .file 4 valid_empty.root)).step
    (.addScope .file 5 (.inr valid_empty.root))
  unfold sharedTable at hnames ⊢
  simp only at hnames ⊢
  cases hfirst : ((empty.addScope .file globalScope 4).2.addScope .file globalScope 5).2.createLabel
      ⟨4, 1, 0, 0, "start"⟩ 1 .label true with
  | error e =>
    rw [hfirst] at hnames
    cases hnames
  | ok r =>
    obtain ⟨id, t⟩ := r
    rw [hfirst] at hnames
    have hstarted := hopened.step (.createLabel (.inr (.inl rfl)) hfirst)
    cases hsecond : t.createLabel ⟨5, 1, 0, 0, "sprite.x"⟩ 2 .label true with
    | error e =>
      replace hnames : (t.createLabel ⟨5, 1, 0, 0, "sprite.x"⟩ 2 .label true >>= fun r =>
        Except.ok (r.2.addReference 4 "sprite")).toOption.map _ = _ := hnames
      rw [hsecond] at hnames
      cases hnames
    | ok r' =>
      obtain ⟨id', t'⟩ := r'
      replace hnames : (t.createLabel ⟨5, 1, 0, 0, "sprite.x"⟩ 2 .label true >>= fun r =>
        Except.ok (r.2.addReference 4 "sprite")).toOption.map _ = _ := hnames
      rw [hsecond] at hnames
      have hmade := (hstarted.step (.createLabel (.inl rfl) hsecond)).step (.addReference 4 "sprite")
      refine ⟨t'.addReference 4 "sprite", _, ?_, hmade, cleared_clearFile hmade 5, Option.some.inj hnames⟩
      change (t.createLabel ⟨5, 1, 0, 0, "sprite.x"⟩ 2 .label true >>= fun r =>
        Except.ok (r.2.addReference 4 "sprite")) = _
      rw [hsecond]
      rfl

end SymbolTable

end CrossAssembler
