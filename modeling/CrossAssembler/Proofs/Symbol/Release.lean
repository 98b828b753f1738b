import CrossAssembler.Proofs.Symbol.Validity

/-!
# Forgetting and releasing sources

Principal results: `Valid.clearFile`, `Valid.releaseFile` — a table stays valid, and no number is released
twice.
-/

namespace CrossAssembler.SymbolTable

variable {t t' : SymbolTable} {h : Handles}
variable {source : SourceId} {id : LabelId}

/-! ## Forgetting a source -/

theorem Valid.unbindAll (hv : t.Valid h) (ids : List LabelId) : (ids.foldl SymbolTable.unbind t).Valid h := by
  induction ids generalizing t with
  | nil => exact hv
  | cons id ids ih => exact ih (hv.unbind id)

theorem label_unbindAll (ids : List LabelId) (t : SymbolTable) (j : LabelId) :
    (ids.foldl SymbolTable.unbind t).label j = if j ∈ ids then { t.label j with bound := false } else t.label j := by
  induction ids generalizing t with
  | nil => rfl
  | cons id ids ih =>
    rw [List.foldl_cons, ih, label_unbind]
    by_cases hid : j = id
    · rw [if_pos hid, if_pos (List.mem_cons.mpr (.inl hid))]
      split <;> rfl
    · rw [if_neg hid]
      by_cases hj : j ∈ ids
      · rw [if_pos hj, if_pos (List.mem_cons_of_mem _ hj)]
      · rw [if_neg hj, if_neg fun hmem => (List.mem_cons.mp hmem).elim hid hj]

theorem source_unbindAll (ids : List LabelId) (t : SymbolTable) (scope : ScopeId) :
    ((ids.foldl SymbolTable.unbind t).scope scope).source = (t.scope scope).source := by
  induction ids generalizing t with
  | nil => rfl
  | cons id ids ih =>
    rw [List.foldl_cons, ih]
    exact source_unbind t id scope

/-- The table with everything out of sight that belongs to a source. -/
def hideOwned (t : SymbolTable) (source : SourceId) : SymbolTable :=
  (t.labelsWhere fun l => l.bound && (l.source == source || (t.scope l.scope).source == source)).foldl
    SymbolTable.unbind t

theorem hidden_hideOwned
    (hsource : (t.scope (t.label id).scope).source = source) : ((t.hideOwned source).label id).bound = false := by
  unfold hideOwned
  rw [label_unbindAll]
  split
  · rfl
  rename_i hnot
  by_contra hshown
  have hbound : (t.label id).bound = true := by simpa using hshown
  have hlt : id < t.labels.size := by
    by_contra hle
    rw [SymbolTable.label, Array.getElem?_eq_none (Nat.le_of_not_lt hle)] at hbound
    cases hbound
  refine hnot (List.mem_filter.mpr ⟨List.mem_range.mpr hlt, ?_⟩)
  simp only [hbound, hsource, beq_self_eq_true, Bool.or_true, Bool.and_true]

theorem scope_label_hideOwned (t : SymbolTable) (source : SourceId) (id : LabelId) :
    ((t.hideOwned source).label id).scope = (t.label id).scope := by
  unfold hideOwned
  rw [label_unbindAll]
  split <;> rfl

theorem source_label_hideOwned (t : SymbolTable) (source : SourceId) (id : LabelId) :
    ((t.hideOwned source).label id).source = (t.label id).source := by
  unfold hideOwned
  rw [label_unbindAll]
  split <;> rfl

theorem scope_clearFile (hv : t.Valid h) (source : SourceId) (scope : ScopeId) :
    (t.clearFile source).scope scope = (t.hideOwned source).scope scope := by
  have hu : (t.hideOwned source).Valid h := hv.unbindAll _
  have hmap : (t.clearFile source).scope scope = let s := (t.hideOwned source).scope scope
      if s.source = source then { s with nameless := [] } else s := by
    unfold SymbolTable.scope
    change ((t.hideOwned source).scopes.map _)[scope]?.getD Scope.vacant = _
    rw [Array.getElem?_map]
    cases (t.hideOwned source).scopes[scope]? with
    | some s => simp only [Option.map_some, Option.getD_some, beq_iff_eq]
    | none =>
      simp only [Option.map_none, Option.getD_none]
      split <;> rfl
  rw [hmap]
  simp only
  split
  · rename_i hsource
    have hempty : ((t.hideOwned source).scope scope).nameless = [] := by
      refine List.eq_nil_iff_forall_not_mem.mpr fun e he => ?_
      obtain ⟨hbound, -, hhome, -⟩ := (hu.indexed.nameless scope e).mp he
      rw [scope_label_hideOwned] at hhome
      rw [hidden_hideOwned (by rw [hhome, ← hsource]; exact (source_unbindAll _ t scope).symm)] at hbound
      cases hbound
    rw [← hempty]
  · rfl

theorem source_clearFile (hv : t.Valid h) (source : SourceId) (scope : ScopeId) :
    ((t.clearFile source).scope scope).source = (t.scope scope).source := by
  rw [scope_clearFile hv]
  exact source_unbindAll _ t scope

theorem Valid.clearFile (hv : t.Valid h) (source : SourceId) : (t.clearFile source).Valid h := by
  have hu : (t.hideOwned source).Valid h := hv.unbindAll _
  have hmarks : ∀ name, (t.clearFile source).tree.marks name = (((t.hideOwned source).tree.marks name).1,
        ((t.hideOwned source).tree.marks name).2 - ((t.hideOwned source).references.getD source #[]).count name) := by
    intro name
    change (((t.hideOwned source).references.getD source #[]).foldl LabelTree.releaseReference
      (t.hideOwned source).tree).marks name = _
    rw [← Array.foldl_toList, LabelTree.marks_releaseReferences, Array.count_toList]
  refine hu.of_tree (fun _ => rfl) (scope_clearFile hv source) rfl Array.size_map rfl rfl
    (fun name => by rw [hmarks]) fun name => ?_
  change _ = occurrences ((t.hideOwned source).references.erase source) name
  have hcount := hu.counted name
  rw [occurrences_eq_add _ source] at hcount
  rw [hmarks]
  simp only
  omega

/-! ## Releasing a source -/

theorem label_releaseLabel (hlt : id < t.labels.size) (j : LabelId) :
    (t.releaseLabel id).label j = if j = id then Label.vacant else t.label j := by
  have hsize : id < (t.unbind id).labels.size := by
    rw [(keeps_unbind t id).labels]
    exact hlt
  unfold releaseLabel SymbolTable.label
  simp only
  rw [label_setIfInBounds]
  by_cases hj : j = id
  · rw [if_pos ⟨hj, hj ▸ hsize⟩, if_pos hj]
  · rw [if_neg fun hall => hj hall.1, if_neg hj]
    exact (label_unbind t id j).trans (if_neg hj)

theorem source_releaseLabel (t : SymbolTable) (id : LabelId) (scope : ScopeId) :
    ((t.releaseLabel id).scope scope).source = (t.scope scope).source := source_unbind t id scope

theorem Valid.releaseLabel (hv : t.Valid h) (hid : id ∈ h.labels) :
    (t.releaseLabel id).Valid { h with labels := h.labels \ {id} } := by
  have hu := hv.unbind id
  have hlive := (hv.labels id).mp hid
  have hsize : (t.releaseLabel id).labels.size = t.labels.size :=
    Array.size_setIfInBounds.trans (keeps_unbind t id).labels
  have hfree : (t.releaseLabel id).freeLabels = id :: t.freeLabels :=
    congrArg (id :: ·) (keeps_unbind t id).freeLabels
  have hlabel : ∀ j, (t.releaseLabel id).label j = if j = id then Label.vacant else (t.unbind id).label j := by
    intro j
    rw [label_releaseLabel hlive.1]
    by_cases hj : j = id
    · rw [if_pos hj, if_pos hj]
    · rw [if_neg hj, if_neg hj, label_unbind, if_neg hj]
  have hhidden : ((t.unbind id).label id).bound = false := by
    rw [label_unbind, if_pos rfl]
  refine
    { indexed := hu.indexed.congr (fun _ _ => rfl) (fun _ => rfl) (fun j scope name => ?_) fun j scope place => ?_
      defined := hu.defined
      counted := hu.counted
      labels := fun j => ?_
      scopes := hu.scopes
      home := fun j hj => ?_
      root := hu.root
      rootSource := hu.rootSource
      freeLabels := ?_
      freeScopes := hu.freeScopes
      vacantLabels := fun j hj => ?_
      vacantScopes := hu.vacantScopes }
  · rw [hlabel]
    split
    · rename_i heq
      subst heq
      exact shownAs_of_hidden rfl hhidden scope name
    · rfl
  · rw [hlabel]
    split
    · rename_i heq
      subst heq
      exact shownAt_of_hidden rfl hhidden scope place
    · rfl
  · rw [hsize, hfree, List.mem_cons, not_or, Set.mem_sdiff, hv.labels, Set.mem_singleton_iff]
    tauto
  · have hne : j ≠ id := hj.2
    rw [hlabel, if_neg hne]
    exact hu.home j hj.1
  · rw [hfree]
    exact List.nodup_cons.mpr ⟨hlive.2, hv.freeLabels⟩
  · rw [hfree] at hj
    rw [hsize, label_releaseLabel hlive.1]
    split
    · rename_i heq
      exact ⟨heq ▸ hlive.1, rfl⟩
    · rename_i hne
      exact hv.vacantLabels j ((List.mem_cons.mp hj).resolve_left hne)

theorem Valid.releaseLabels (ids : List LabelId) (hnodup : ids.Nodup) (hv : t.Valid h)
    (hids : ∀ id ∈ ids, id ∈ h.labels) :
    (ids.foldl SymbolTable.releaseLabel t).Valid { h with labels := { j ∈ h.labels | j ∉ ids } } := by
  induction ids generalizing t h with
  | nil =>
    have hall : { j ∈ h.labels | j ∉ ([] : List LabelId) } = h.labels := by
      ext j
      simp
    rw [hall]
    exact hv
  | cons id ids ih =>
    obtain ⟨hid, hrest⟩ := List.nodup_cons.mp hnodup
    have hstep := hv.releaseLabel (hids id List.mem_cons_self)
    have htail := ih hrest hstep fun other hother =>
      ⟨hids other (List.mem_cons_of_mem _ hother), fun heq => hid (heq ▸ hother)⟩
    have hsame : { j ∈ h.labels \ {id} | j ∉ ids } = { j ∈ h.labels | j ∉ id :: ids } := by
      ext j
      simp only [Set.mem_sdiff, Set.mem_singleton_iff, Set.mem_ofPred_eq, List.mem_cons, not_or]
      tauto
    rw [List.foldl_cons, ← hsame]
    exact htail

theorem label_releaseLabels (ids : List LabelId) (t : SymbolTable) (hids : ∀ id ∈ ids, id < t.labels.size)
    {j : LabelId} (hj : j ∉ ids) : (ids.foldl SymbolTable.releaseLabel t).label j = t.label j := by
  induction ids generalizing t with
  | nil => rfl
  | cons id ids ih =>
    obtain ⟨hne, hrest⟩ := not_or.mp (mt List.mem_cons.mpr hj)
    have hsize : (t.releaseLabel id).labels.size = t.labels.size :=
      Array.size_setIfInBounds.trans (keeps_unbind t id).labels
    rw [List.foldl_cons, ih _ (fun other hother => hsize ▸ hids other (List.mem_cons_of_mem _ hother)) hrest,
      label_releaseLabel (hids id List.mem_cons_self), if_neg hne]

theorem source_releaseLabels (ids : List LabelId) (t : SymbolTable) (scope : ScopeId) :
    ((ids.foldl SymbolTable.releaseLabel t).scope scope).source = (t.scope scope).source := by
  induction ids generalizing t with
  | nil => rfl
  | cons id ids ih =>
    rw [List.foldl_cons, ih]
    exact source_releaseLabel t id scope

theorem scope_releaseScope {id : ScopeId} (hlt : id < t.scopes.size) (j : ScopeId) :
    (t.releaseScope id).scope j = if j = id then Scope.vacant else t.scope j := by
  unfold releaseScope SymbolTable.scope
  simp only
  rw [Array.getElem?_setIfInBounds]
  by_cases hj : id = j
  · rw [if_pos hj, if_pos (hj ▸ hlt), if_pos hj.symm]
    rfl
  · rw [if_neg hj, if_neg (Ne.symm hj)]

theorem Valid.releaseScope (hv : t.Valid h) {id : ScopeId} (hid : id ∈ h.scopes) (hroot : id ≠ globalScope)
    (hempty : ∀ j ∈ h.labels, (t.label j).scope ≠ id) :
    (t.releaseScope id).Valid { h with scopes := h.scopes \ {id} } := by
  have hlive := (hv.scopes id).mp hid
  have hscope := scope_releaseScope hlive.1
  have hsize : (t.releaseScope id).scopes.size = t.scopes.size := Array.size_setIfInBounds
  have hnone : ∀ name, t.lookupIn? id name = none := by
    intro name
    refine Option.eq_none_iff_forall_ne_some.mpr fun label hfound => ?_
    obtain ⟨hbound, -, hhome, -⟩ := (hv.indexed.names id name label).mp hfound
    exact hempty label (hv.live_of_bound hbound) hhome
  have hnil : (t.scope id).nameless = [] := by
    refine List.eq_nil_iff_forall_not_mem.mpr fun e he => ?_
    obtain ⟨hbound, -, hhome, -⟩ := (hv.indexed.nameless id e).mp he
    exact hempty e.label (hv.live_of_bound hbound) hhome
  have hlookup : ∀ scope name, (t.releaseScope id).lookupIn? scope name = t.lookupIn? scope name := by
    intro scope name
    by_cases hs : scope = id
    · subst hs
      rw [hnone, lookupIn?, hscope, if_pos rfl]
      exact Std.TreeMap.getElem?_emptyc
    · rw [lookupIn?, hscope, if_neg hs]
      rfl
  refine
    { indexed := hv.indexed.congr hlookup (fun scope => ?_) (fun _ _ _ => .rfl) fun _ _ _ => .rfl
      defined := fun name => by rw [hlookup]; exact hv.defined name
      counted := hv.counted
      labels := hv.labels
      scopes := fun j => ?_
      home := fun j hj => ⟨hv.home j hj, hempty j hj⟩
      root := ⟨hv.root, Ne.symm hroot⟩
      rootSource := by rw [hscope, if_neg (Ne.symm hroot)]; exact hv.rootSource
      freeLabels := hv.freeLabels
      freeScopes := List.nodup_cons.mpr ⟨hlive.2, hv.freeScopes⟩
      vacantLabels := hv.vacantLabels
      vacantScopes := fun j hj => ?_ }
  · rw [hscope]
    split
    · rename_i heq
      rw [heq, hnil]
      rfl
    · rfl
  · change _ ↔ _ ∧ j ∉ id :: t.freeScopes
    rw [hsize, List.mem_cons, not_or, Set.mem_sdiff, hv.scopes, Set.mem_singleton_iff]
    tauto
  · rw [hsize, hscope]
    split
    · rename_i heq
      exact ⟨heq ▸ hlive.1, rfl⟩
    · rename_i hne
      exact hv.vacantScopes j ((List.mem_cons.mp hj).resolve_left hne)

theorem Valid.releaseScopes (ids : List ScopeId) (hnodup : ids.Nodup) (hv : t.Valid h)
    (hids : ∀ id ∈ ids, id ∈ h.scopes ∧ id ≠ globalScope)
    (hempty : ∀ j ∈ h.labels, (t.label j).scope ∉ ids) :
    (ids.foldl SymbolTable.releaseScope t).Valid { h with scopes := { j ∈ h.scopes | j ∉ ids } } := by
  induction ids generalizing t h with
  | nil =>
    have hall : { j ∈ h.scopes | j ∉ ([] : List ScopeId) } = h.scopes := by
      ext j
      simp
    rw [hall]
    exact hv
  | cons id ids ih =>
    obtain ⟨hid, hrest⟩ := List.nodup_cons.mp hnodup
    obtain ⟨hlive, hroot⟩ := hids id List.mem_cons_self
    have hstep := hv.releaseScope hlive hroot fun j hj heq => hempty j hj (List.mem_cons.mpr (.inl heq))
    have htail := ih hrest hstep (fun other hother =>
        have hmem := hids other (List.mem_cons_of_mem _ hother)
        ⟨⟨hmem.1, fun heq => hid (heq ▸ hother)⟩, hmem.2⟩)
      fun j hj hmem => hempty j hj (List.mem_cons_of_mem _ hmem)
    have hsame : { j ∈ h.scopes \ {id} | j ∉ ids } = { j ∈ h.scopes | j ∉ id :: ids } := by
      ext j
      simp only [Set.mem_sdiff, Set.mem_singleton_iff, Set.mem_ofPred_eq, List.mem_cons, not_or]
      tauto
    rw [List.foldl_cons, ← hsame]
    exact htail

/-- Whether a label belongs to a source: a label of the global scope to the one that made it, any other to
that of its scope. -/
def Owns (t : SymbolTable) (source : SourceId) (id : LabelId) : Prop :=
  if (t.label id).scope = globalScope then (t.label id).source = source
  else (t.scope (t.label id).scope).source = source

/-- The handles that are live when a source has been released. Nothing is released with the source of the
global scope. -/
def afterRelease (t : SymbolTable) (source : SourceId) (h : Handles) : Handles where
  labels := { id ∈ h.labels | source = (t.scope globalScope).source ∨ ¬ t.Owns source id }
  scopes := { id ∈ h.scopes |
    source = (t.scope globalScope).source ∨ id = globalScope ∨ (t.scope id).source ≠ source }

/-- The labels of a source, the last one first. -/
def labelsOf (t : SymbolTable) (source : SourceId) : List LabelId :=
  (t.labelsWhere fun l =>
    if l.scope = globalScope then l.source == source else (t.scope l.scope).source == source).reverse

/-- The scopes of a source, the last one first. -/
def scopesOf (t : SymbolTable) (source : SourceId) : List ScopeId :=
  ((List.range t.scopes.size).filter fun id => id != globalScope && (t.scope id).source == source).reverse

theorem mem_labelsOf : id ∈ t.labelsOf source ↔ id < t.labels.size ∧ t.Owns source id := by
  unfold labelsOf labelsWhere Owns
  rw [List.mem_reverse, List.mem_filter, List.mem_range]
  refine and_congr_right fun _ => ?_
  simp only
  split
  · exact beq_iff_eq
  · exact beq_iff_eq

theorem mem_scopesOf {id : ScopeId} :
    id ∈ t.scopesOf source ↔ id < t.scopes.size ∧ id ≠ globalScope ∧ (t.scope id).source = source := by
  unfold scopesOf
  rw [List.mem_reverse, List.mem_filter, List.mem_range, Bool.and_eq_true, bne_iff_ne, beq_iff_eq]

theorem Valid.live_of_owns (hv : t.Valid h) (hsource : source ≠ noSource)
    (hlt : id < t.labels.size) (howns : t.Owns source id) : id ∈ h.labels := by
  refine (hv.labels id).mpr ⟨hlt, fun hfree => hsource ?_⟩
  unfold Owns at howns
  rw [(hv.vacantLabels id hfree).2] at howns
  exact howns.symm

/-- The labels of a source are released, then its scopes, which are without labels by then. -/
theorem Valid.releaseOwned (hv : t.Valid h) (hsource : source ≠ noSource) :
    let u := (t.labelsOf source).foldl SymbolTable.releaseLabel t
    ((u.scopesOf source).foldl SymbolTable.releaseScope u).Valid ⟨{ id ∈ h.labels | ¬ t.Owns source id },
        { id ∈ h.scopes | id = globalScope ∨ (t.scope id).source ≠ source }⟩ := by
  have hlive : ∀ id ∈ t.labelsOf source, id ∈ h.labels := fun id hid =>
    hv.live_of_owns hsource (mem_labelsOf.mp hid).1 (mem_labelsOf.mp hid).2
  have hnodup : (t.labelsOf source).Nodup := List.nodup_reverse.mpr (List.nodup_range.filter _)
  have hreleased := hv.releaseLabels (t.labelsOf source) hnodup hlive
  have hsources := fun scope => source_releaseLabels (t.labelsOf source) t scope
  have hkept := fun j hj => label_releaseLabels (t.labelsOf source) t
    (fun id hid => (mem_labelsOf.mp hid).1) (j := j) hj
  simp only
  generalize (t.labelsOf source).foldl SymbolTable.releaseLabel t = u at hreleased hsources hkept ⊢
  have hscopes : (u.scopesOf source).Nodup := List.nodup_reverse.mpr (List.nodup_range.filter _)
  have hafter := hreleased.releaseScopes (u.scopesOf source) hscopes (fun id hid => ?_) fun j hj hin => ?_
  · have hsame : (⟨{ id ∈ h.labels | ¬ t.Owns source id },
        { id ∈ h.scopes | id = globalScope ∨ (t.scope id).source ≠ source }⟩ : Handles) =
        ⟨{ j ∈ h.labels | j ∉ t.labelsOf source }, { j ∈ h.scopes | j ∉ u.scopesOf source }⟩ := by
      ext j
      · refine and_congr_right fun hj => not_congr ?_
        rw [mem_labelsOf, and_iff_right (hv.lt_of_live hj)]
      · refine and_congr_right fun hj => ?_
        rw [mem_scopesOf, and_iff_right ((hreleased.scopes j).mp hj).1, hsources]
        tauto
    rw [hsame]
    exact hafter
  · obtain ⟨hlt, hroot, hfrom⟩ := mem_scopesOf.mp hid
    refine ⟨(hreleased.scopes id).mpr ⟨hlt, fun hfree => hsource ?_⟩, hroot⟩
    rw [← hfrom, (hreleased.vacantScopes id hfree).2]
    rfl
  · -- a label of such a scope would have been released before
    obtain ⟨hj, hnot⟩ := hj
    rw [hkept j hnot] at hin
    obtain ⟨-, hroot, hfrom⟩ := mem_scopesOf.mp hin
    rw [hsources] at hfrom
    refine hnot (mem_labelsOf.mpr ⟨hv.lt_of_live hj, ?_⟩)
    rw [Owns, if_neg hroot]
    exact hfrom

theorem owns_clearFile (hv : t.Valid h) (source : SourceId) (id : LabelId) :
    (t.clearFile source).Owns source id ↔ t.Owns source id := by
  have hscope : ((t.clearFile source).label id).scope = (t.label id).scope := scope_label_hideOwned t source id
  have hsource : ((t.clearFile source).label id).source = (t.label id).source :=
    source_label_hideOwned t source id
  unfold Owns
  rw [hscope, hsource, source_clearFile hv]

theorem Valid.releaseFile (hv : t.Valid h) (source : SourceId) :
    (t.releaseFile source).Valid (t.afterRelease source h) := by
  by_cases hroot : source = (t.scope globalScope).source
  · have hsame : t.afterRelease source h = h := by
      ext j
      · exact ⟨fun hj => hj.1, fun hj => ⟨hj, .inl hroot⟩⟩
      · exact ⟨fun hj => hj.1, fun hj => ⟨hj, .inl hroot⟩⟩
    unfold SymbolTable.releaseFile
    rw [if_pos (beq_iff_eq.mpr hroot), hsame]
    exact hv
  · have hsource : source ≠ noSource := fun heq => hroot (heq.trans hv.rootSource.symm)
    have hsame : t.afterRelease source h = ⟨{ id ∈ h.labels | ¬ (t.clearFile source).Owns source id },
        { id ∈ h.scopes | id = globalScope ∨ ((t.clearFile source).scope id).source ≠ source }⟩ := by
      ext j
      · refine and_congr_right fun _ => ?_
        rw [owns_clearFile hv, or_iff_right hroot]
      · refine and_congr_right fun _ => ?_
        rw [source_clearFile hv, or_iff_right hroot]
    unfold SymbolTable.releaseFile
    rw [if_neg (mt beq_iff_eq.mp hroot), hsame]
    exact (hv.clearFile source).releaseOwned hsource

end CrossAssembler.SymbolTable
