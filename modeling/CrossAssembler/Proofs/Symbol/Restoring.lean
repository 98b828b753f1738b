import CrossAssembler.Proofs.Symbol.Nameless

/-!
# Hiding labels and showing them again

What a table answers is settled by its labels: which names a scope has, which nameless labels it lists and in
which order, and which names are in the tree. So it does not matter on which way the same labels were reached.

* `Concealed.unbind`, `Concealed.rebind` — one label more, or one less, is hidden.

Principal result: `answers_restored` — after hiding labels and showing them again, each in any order, all answers
are as before.
-/

namespace CrossAssembler

namespace LabelTree

variable {t t' : LabelTree}

/-! ## Trees with the same marks -/

theorem Shaped.contains_congr (ht : t.Shaped) (ht' : t'.Shaped) (hmarks : ∀ name, t'.marks name = t.marks name)
    (name : String) : t'.contains name = t.contains name := by
  rw [Bool.eq_iff_iff, ht'.contains_iff, ht.contains_iff]
  simp only [hmarks]

theorem Shaped.children_congr (ht : t.Shaped) (ht' : t'.Shaped) (hmarks : ∀ name, t'.marks name = t.marks name)
    (name : String) : t'.children name = t.children name := by
  refine (ht'.linked.sorted name).eq_of_mem_iff (ht.linked.sorted name) fun child => ?_
  rw [mem_children ht'.linked, mem_children ht.linked, ← LabelTree.contains_iff, ← LabelTree.contains_iff,
    ht.contains_congr ht' hmarks]

theorem Shaped.roots_congr (ht : t.Shaped) (ht' : t'.Shaped) (hmarks : ∀ name, t'.marks name = t.marks name) :
    t'.roots = t.roots := by
  refine (sorted_roots t').eq_of_mem_iff (sorted_roots t) fun name => ?_
  rw [mem_roots, mem_roots, ← LabelTree.contains_iff, ← LabelTree.contains_iff, ht.contains_congr ht' hmarks]

theorem isPlaceholder_eq (t : LabelTree) (name : String) :
    t.isPlaceholder name = (t.contains name && !t.isDefined name) := by
  unfold isPlaceholder contains isDefined
  rw [Std.TreeMap.contains_eq_isSome_getElem?]
  cases t.nodes[name]? <;> rfl

end LabelTree

namespace SymbolTable

variable {t t' : SymbolTable} {h : Handles} {hidden : Set LabelId}
variable {id : LabelId}

/-! ## Tables with the same labels -/

/-- Whether two tables answer every query alike. -/
structure SameAnswers (t t' : SymbolTable) : Prop where
  /-- Labels keep their values, and everything else about them. -/
  labels : t'.labels = t.labels
  findLabel : ∀ name scope, t'.findLabel? name scope = t.findLabel? name scope
  findNameless : ∀ reference scope line column,
    t'.findNameless? reference scope line column = t.findNameless? reference scope line column
  contains : ∀ name, t'.tree.contains name = t.tree.contains name
  isDefined : ∀ name, t'.tree.isDefined name = t.tree.isDefined name
  isPlaceholder : ∀ name, t'.tree.isPlaceholder name = t.tree.isPlaceholder name
  children : ∀ name, t'.tree.children name = t.tree.children name
  roots : t'.tree.roots = t.tree.roots

theorem Indexed.lookupIn_congr (hi : t.Indexed) (hi' : t'.Indexed) (hlabel : ∀ id, t'.label id = t.label id)
    (scope : ScopeId) (name : String) : t'.lookupIn? scope name = t.lookupIn? scope name := by
  ext id
  rw [hi'.names, hi.names, hlabel]

/-- The order of a list of nameless labels is that of their places, so the labels alone settle it. -/
theorem Indexed.nameless_congr (hi : t.Indexed) (hi' : t'.Indexed) (hlabel : ∀ id, t'.label id = t.label id)
    {scope : ScopeId} (hapart : t.Apart scope) : (t'.scope scope).nameless = (t.scope scope).nameless := by
  have hapart' : t'.Apart scope := by
    intro place id id' hid hid'
    rw [hlabel] at hid hid'
    exact hapart place id id' hid hid'
  have hasymm : Std.Antisymm NamelessEntry.Before := ⟨fun _ _ hbefore hafter => absurd hafter hbefore.asymm⟩
  have hirrefl : Std.Irrefl NamelessEntry.Before := ⟨fun _ hbefore => hbefore.asymm hbefore⟩
  refine (hi'.strict hapart').eq_of_mem_iff (hi.strict hapart) fun e => ?_
  rw [hi'.nameless, hi.nameless, hlabel]

theorem findWithin_congr (hparent : ∀ scope, (t'.scope scope).parent = (t.scope scope).parent)
    (hlookup : ∀ scope name, t'.lookupIn? scope name = t.lookupIn? scope name) (name : String) (n : Nat)
    (scope : ScopeId) : t'.findWithin name n scope = t.findWithin name n scope := by
  induction n generalizing scope with
  | zero => rfl
  | succ n ih =>
    unfold findWithin
    simp only [hlookup, hparent, ih]

theorem array_eq_of_label (hsize : t'.labels.size = t.labels.size) (hlabel : ∀ id, t'.label id = t.label id) :
    t'.labels = t.labels := by
  refine Array.ext hsize fun id hid' hid => ?_
  have hsame := hlabel id
  unfold SymbolTable.label at hsame
  rwa [Array.getElem?_eq_getElem hid', Array.getElem?_eq_getElem hid] at hsame

/-- Valid tables with the same labels, scopes and references give the same answers. -/
theorem sameAnswers_of_labels (hv : t.Valid h) (hv' : t'.Valid h) (ht : t.tree.Shaped) (ht' : t'.tree.Shaped)
    (hapart : ∀ scope, t.Apart scope) (hkeeps : Keeps t t') (hreferences : t'.references = t.references)
    (hlabel : ∀ id, t'.label id = t.label id) : SameAnswers t t' := by
  have hlookup := hv.indexed.lookupIn_congr hv'.indexed hlabel
  have hmarks : ∀ name, t'.tree.marks name = t.tree.marks name := by
    intro name
    refine Prod.ext ?_ ?_
    · rw [hv'.defined, hv.defined, hlookup]
    · rw [hv'.counted, hv.counted, hreferences]
  have hdefined : ∀ name, t'.tree.isDefined name = t.tree.isDefined name := by
    intro name
    rw [LabelTree.isDefined_eq, LabelTree.isDefined_eq, hmarks]
  have hcontains := ht.contains_congr ht' hmarks
  refine
    { labels := array_eq_of_label hkeeps.labels hlabel
      findLabel := fun name scope => ?_
      findNameless := fun reference scope line column => ?_
      contains := hcontains
      isDefined := hdefined
      isPlaceholder := fun name => ?_
      children := ht.children_congr ht' hmarks
      roots := ht.roots_congr ht' hmarks }
  · unfold findLabel?
    rw [hkeeps.scopes]
    exact findWithin_congr hkeeps.parent hlookup name _ scope
  · have hhome : t'.namelessHome scope = t.namelessHome scope := by
      unfold namelessHome
      rw [hkeeps.scopeKind]
    unfold findNameless?
    rw [hhome, hv.indexed.nameless_congr hv'.indexed hlabel (hapart _)]
  · rw [LabelTree.isPlaceholder_eq, LabelTree.isPlaceholder_eq, hcontains, hdefined]

/-! ## Some labels hidden -/

/-- Whether a table is another one with some of its labels hidden. -/
structure Concealed (hidden : Set LabelId) (t t' : SymbolTable) (h : Handles) : Prop where
  valid : t'.Valid h
  shaped : t'.tree.Shaped
  keeps : Keeps t t'
  references : t'.references = t.references
  concealed : ∀ id ∈ hidden, t'.label id = { t.label id with bound := false }
  others : ∀ id ∉ hidden, t'.label id = t.label id

theorem Attained.concealed (ha : Attained t h) : Concealed ∅ t t h :=
  ⟨ha.valid, ha.shaped, .refl t, rfl, fun _ hid => absurd hid (Set.notMem_empty _), fun _ _ => rfl⟩

theorem Concealed.unbind (hc : Concealed hidden t t' h) (id : LabelId) :
    Concealed (insert id hidden) t (t'.unbind id) h := by
  refine ⟨hc.valid.unbind id, shaped_unbind hc.shaped id, hc.keeps.trans (keeps_unbind t' id),
    (references_unbind t' id).trans hc.references, fun other hother => ?_, fun other hother => ?_⟩
  · rw [label_unbind]
    by_cases heq : other = id
    · rw [if_pos heq]
      by_cases hin : other ∈ hidden
      · rw [hc.concealed other hin]
      · rw [hc.others other hin]
    · rw [if_neg heq]
      exact hc.concealed other (hother.resolve_left heq)
  · have hne : other ≠ id := fun heq => hother (.inl heq)
    rw [label_unbind, if_neg hne]
    exact hc.others other fun hin => hother (.inr hin)

theorem Concealed.unbindAll (hc : Concealed hidden t t' h) (ids : List LabelId) :
    Concealed (hidden ∪ { id | id ∈ ids }) t (ids.foldl SymbolTable.unbind t') h := by
  induction ids generalizing hidden t' with
  | nil => simpa using hc
  | cons id ids ih =>
    have hset : hidden ∪ { other | other ∈ id :: ids } = insert id hidden ∪ { other | other ∈ ids } := by
      ext other
      simp only [Set.mem_union, Set.mem_ofPred_eq, List.mem_cons, Set.mem_insert_iff]
      tauto
    rw [List.foldl_cons, hset]
    exact ih (hc.unbind id)

theorem Concealed.lookupIn_eq_none (hc : Concealed hidden t t' h) (hi : t.Indexed) (hid : id ∈ hidden)
    (hbound : (t.label id).bound = true) (hreach : (t.label id).reach ≠ .nameless) :
    t'.lookupIn? (t.label id).scope (t.label id).name = none := by
  refine Option.eq_none_iff_forall_not_mem.mpr fun other hother => ?_
  have hshown := (hc.valid.indexed.names _ _ other).mp hother
  by_cases hin : other ∈ hidden
  · rw [hc.concealed other hin] at hshown
    exact Bool.false_ne_true hshown.1
  · rw [hc.others other hin] at hshown
    have hfound := (hi.names _ _ other).mpr hshown
    rw [(hi.names _ _ id).mpr ⟨hbound, hreach, rfl, rfl⟩] at hfound
    exact hin (Option.some.inj hfound ▸ hid)

theorem rebind_of_free (hhidden : (t.label id).bound = false)
    (hfree : (t.label id).reach ≠ .nameless → t.lookupIn? (t.label id).scope (t.label id).name = none) :
    t.rebind id = .ok (t.bind id) := by
  unfold SymbolTable.rebind
  simp only [hhidden, Bool.false_eq_true, if_false]
  split
  · rfl
  · rfl
  · rename_i hsome hreach
    rw [hfree hreach] at hsome
    cases hsome

theorem Concealed.rebind (hc : Concealed hidden t t' h) (hv : t.Valid h) (hbound : (t.label id).bound = true) :
    ∃ t'', t'.rebind id = .ok t'' ∧ Concealed (hidden \ {id}) t t'' h := by
  by_cases hid : id ∈ hidden
  · have hlive := hv.live_of_bound hbound
    have hlabel := hc.concealed id hid
    have hhidden : (t'.label id).bound = false := by rw [hlabel]
    have hfree : (t'.label id).reach ≠ .nameless → t'.lookupIn? (t'.label id).scope (t'.label id).name = none := by
      rw [hlabel]
      exact hc.lookupIn_eq_none hv.indexed hid hbound
    refine ⟨t'.bind id, rebind_of_free hhidden hfree, hc.valid.bind hlive hhidden hfree, shaped_bind hc.shaped id,
      hc.keeps.trans (keeps_bind t' id), (references_bind t' id).trans hc.references, fun other hother => ?_,
      fun other hother => ?_⟩
    · rw [label_bind, if_neg fun hall => hother.2 hall.1]
      exact hc.concealed other hother.1
    rw [label_bind]
    by_cases heq : other = id
    · subst heq
      rw [if_pos ⟨rfl, hc.valid.lt_of_live hlive⟩, hlabel, ← hbound]
    · rw [if_neg fun hall => heq hall.1]
      exact hc.others other fun hin => hother ⟨hin, heq⟩
  · have hlabel := hc.others id hid
    refine ⟨t', ?_, ?_⟩
    · unfold SymbolTable.rebind
      rw [hlabel]
      simp only [hbound, if_true]
    · rwa [Set.sdiff_singleton_eq_self hid]

theorem Concealed.rebindAll (hc : Concealed hidden t t' h) (hv : t.Valid h) (ids : List LabelId)
    (hbound : ∀ id ∈ ids, (t.label id).bound = true) :
    ∃ t'', ids.foldlM SymbolTable.rebind t' = .ok t'' ∧ Concealed (hidden \ { id | id ∈ ids }) t t'' h := by
  induction ids generalizing hidden t' with
  | nil => exact ⟨t', rfl, by simpa using hc⟩
  | cons id ids ih =>
    obtain ⟨hfirst, hrest⟩ := List.forall_mem_cons.mp hbound
    obtain ⟨next, hnext, hless⟩ := hc.rebind hv hfirst
    obtain ⟨last, hlast, hleft⟩ := ih hless hrest
    have hset : hidden \ { other | other ∈ id :: ids } = (hidden \ {id}) \ { other | other ∈ ids } := by
      ext other
      simp only [Set.mem_sdiff, Set.mem_ofPred_eq, List.mem_cons, Set.mem_singleton_iff]
      tauto
    refine ⟨last, ?_, hset ▸ hleft⟩
    rw [List.foldlM_cons, hnext]
    exact hlast

/-- **Hiding and showing again is exact.** Labels that are shown, with all nameless ones of a scope at places of
their own, can be hidden and shown again, each in any order: every search, every query of the tree and every label
is as before. -/
theorem answers_restored (hattained : Attained t h) (hapart : ∀ scope, t.Apart scope) {ids ids' : List LabelId}
    (hbound : ∀ id ∈ ids, (t.label id).bound = true) (hsame : ∀ id, id ∈ ids' ↔ id ∈ ids) :
    ∃ t', ids'.foldlM SymbolTable.rebind (ids.foldl SymbolTable.unbind t) = .ok t' ∧ SameAnswers t t' := by
  have hv := hattained.valid
  have hhidden := hattained.concealed.unbindAll ids
  obtain ⟨t', hshown, hc⟩ := hhidden.rebindAll hv ids' fun id hid => hbound id ((hsame id).mp hid)
  have hnone : ∀ id, id ∉ (∅ ∪ { id | id ∈ ids }) \ { id | id ∈ ids' } := by
    intro id hid
    simp only [Set.empty_union, Set.mem_sdiff, Set.mem_ofPred_eq, hsame] at hid
    exact hid.2 hid.1
  exact ⟨t', hshown, sameAnswers_of_labels hv hc.valid hattained.shaped hc.shaped hapart hc.keeps hc.references
    fun id => hc.others id (hnone id)⟩

/-- Nameless labels, and two names below one that is not defined. -/
def pairedMarks : SymbolTable := (threeMarks.withLabel ⟨5, 1, 0, 0, "pos.x"⟩ 1).withLabel ⟨5, 2, 0, 0, "pos.y"⟩ 1

theorem attained_pairedMarks : ∃ h, Attained pairedMarks h := by
  obtain ⟨h, hmade⟩ := attained_threeMarks
  have hfile : 1 ∈ h.scopes := (hmade.valid.scopes 1).mpr (by decide +kernel)
  obtain ⟨h₁, hfirst, hscope⟩ := hmade.withLabel ⟨5, 1, 0, 0, "pos.x"⟩ hfile
  obtain ⟨h₂, hsecond, -⟩ := hfirst.withLabel ⟨5, 2, 0, 0, "pos.y"⟩ hscope
  exact ⟨h₂, hsecond⟩

theorem apart_pairedMarks (scope : ScopeId) : pairedMarks.Apart scope := by
  obtain ⟨h, hmade⟩ := attained_pairedMarks
  refine hmade.valid.indexed.apart ?_
  by_cases hscope : scope < 2
  · interval_cases scope <;> decide +kernel
  · have hsize : pairedMarks.scopes.size = 2 := by decide +kernel
    rw [SymbolTable.scope, Array.getElem?_eq_none (hsize ▸ Nat.le_of_not_lt hscope)]
    exact List.nodup_nil

/-- While the labels are hidden, the name above two of them is not in the tree. -/
theorem answers_restored_pairedMarks :
    ([3, 1, 4, 0].foldl SymbolTable.unbind pairedMarks).tree.contains "pos" = false ∧
      ∃ t', [0, 4, 3, 1].foldlM SymbolTable.rebind ([3, 1, 4, 0].foldl SymbolTable.unbind pairedMarks) = .ok t' ∧
        SameAnswers pairedMarks t' ∧ t'.tree.children "pos" = ["pos.x", "pos.y"] := by
  obtain ⟨h, hmade⟩ := attained_pairedMarks
  have hbound : ∀ id ∈ [3, 1, 4, 0], (pairedMarks.label id).bound = true := by decide +kernel
  have hsame : ∀ id, id ∈ [0, 4, 3, 1] ↔ id ∈ [3, 1, 4, 0] := by
    intro id
    simp only [List.mem_cons, List.not_mem_nil, or_false]
    omega
  obtain ⟨t', hshown, hanswers⟩ := answers_restored hmade apart_pairedMarks hbound hsame
  have hchildren : pairedMarks.tree.children "pos" = ["pos.x", "pos.y"] := by decide +kernel
  exact ⟨by decide +kernel, t', hshown, hanswers, (hanswers.children "pos").trans hchildren⟩

end SymbolTable

end CrossAssembler
