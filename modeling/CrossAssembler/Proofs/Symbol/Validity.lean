import CrossAssembler.Proofs.Symbol.Visibility

/-!
# Valid symbol tables

Principal results: `Valid.bind`, `Valid.unbind`, `Valid.createLabel`, `Valid.addScope`,
`Valid.addReference` — the operations keep a table valid.
-/

namespace CrossAssembler

/-! ## References -/

/-- How often sources refer to a name. -/
def occurrences (references : Std.TreeMap SourceId (Array String)) (name : String) : Nat :=
  (references.toList.map fun entry => entry.2.count name).sum

section Occurrences

variable (references : Std.TreeMap SourceId (Array String)) (source : SourceId)

theorem occurrences_congr {references references' : Std.TreeMap SourceId (Array String)}
    (h : ∀ source : SourceId, references[source]? = references'[source]?) (name : String) :
    occurrences references name = occurrences references' name := by
  unfold occurrences
  rw [(Std.TreeMap.Equiv.of_forall_constGet?_eq h).toList_eq]

theorem getElem?_insert_erase (names : Array String) (other : SourceId) :
    (references.insert source names)[other]? = ((references.erase source).insert source names)[other]? := by
  simp only [Std.TreeMap.getElem?_insert, Std.TreeMap.getElem?_erase]
  split <;> rfl

theorem occurrences_insert (names : Array String) (name : String) :
    occurrences (references.insert source names) name =
      names.count name + occurrences (references.erase source) name := by
  rw [occurrences_congr (getElem?_insert_erase references source names)]
  have hperm := Std.TreeMap.toList_insert_perm (t := references.erase source) (k := source) (v := names)
  have hothers : (references.erase source).toList.filter (fun entry => ¬ source == entry.1) =
      (references.erase source).toList := by
    refine List.filter_eq_self.mpr fun entry hentry => ?_
    have hget := Std.TreeMap.mem_toList_iff_getElem?_eq_some.mp hentry
    simp only [beq_iff_eq, decide_not, Bool.not_eq_eq_eq_not, Bool.not_true, decide_eq_false_iff_not]
    rintro rfl
    rw [Std.TreeMap.getElem?_erase_self] at hget
    cases hget
  rw [hothers] at hperm
  unfold occurrences
  rw [(hperm.map fun entry => entry.2.count name).sum_eq]
  rfl

theorem occurrences_eq_add (name : String) : occurrences references name =
      (references.getD source #[]).count name + occurrences (references.erase source) name := by
  cases hget : references[source]? with
  | some names =>
    rw [Std.TreeMap.getD_eq_getD_getElem?, hget, Option.getD_some, ← occurrences_insert]
    refine occurrences_congr (fun other => ?_) name
    rw [Std.TreeMap.getElem?_insert]
    split
    · rename_i heq
      rw [← Std.LawfulEqOrd.eq_of_compare heq]
      exact hget
    · rfl
  | none =>
    rw [Std.TreeMap.getD_eq_getD_getElem?, hget, Option.getD_none, Array.count_empty, Nat.zero_add]
    refine occurrences_congr (fun other => ?_) name
    rw [Std.TreeMap.getElem?_erase]
    split
    · rename_i heq
      rw [← Std.LawfulEqOrd.eq_of_compare heq]
      exact hget
    · rfl

end Occurrences

/-- The numbers of labels and scopes that have been handed out and not released since. -/
@[ext]
structure Handles where
  labels : Set LabelId
  scopes : Set ScopeId

namespace SymbolTable

variable {t t' : SymbolTable} {h : Handles}
variable {id : LabelId}

/-! ## Valid tables -/

/-- Whether all indexes of a table agree, and what is not in use is vacant. -/
structure Valid (t : SymbolTable) (h : Handles) : Prop where
  indexed : t.Indexed
  defined : ∀ name, (t.tree.marks name).1 = (t.lookupIn? globalScope name).isSome
  counted : ∀ name, (t.tree.marks name).2 = occurrences t.references name
  labels : ∀ id, id ∈ h.labels ↔ id < t.labels.size ∧ id ∉ t.freeLabels
  scopes : ∀ id, id ∈ h.scopes ↔ id < t.scopes.size ∧ id ∉ t.freeScopes
  home : ∀ id ∈ h.labels, (t.label id).scope ∈ h.scopes
  root : globalScope ∈ h.scopes
  rootSource : (t.scope globalScope).source = noSource
  freeLabels : t.freeLabels.Nodup
  freeScopes : t.freeScopes.Nodup
  vacantLabels : ∀ id ∈ t.freeLabels, id < t.labels.size ∧ t.label id = Label.vacant
  vacantScopes : ∀ id ∈ t.freeScopes, id < t.scopes.size ∧ t.scope id = Scope.vacant

theorem valid_empty : empty.Valid ⟨∅, {globalScope}⟩ := by
  have hscope : ∀ scope, empty.scope scope = Scope.vacant := by
    intro scope
    unfold SymbolTable.scope empty
    cases scope <;> rfl
  have hlookup : ∀ scope name, empty.lookupIn? scope name = none := by
    intro scope name
    rw [lookupIn?, hscope]
    exact Std.TreeMap.getElem?_emptyc
  have hlabel : ∀ id, empty.label id = Label.vacant := fun _ => rfl
  refine
    { indexed := ⟨fun scope name id => ?_, fun scope e => ?_, fun scope => ?_, fun scope => ?_⟩
      defined := fun name => ?_
      counted := fun name => ?_
      labels := fun id => ⟨False.elim, fun h => absurd h.1 (Nat.not_lt_zero id)⟩
      scopes := fun id => ?_
      home := fun _ h => h.elim
      root := rfl
      rootSource := rfl
      freeLabels := .nil
      freeScopes := .nil
      vacantLabels := fun _ h => absurd h List.not_mem_nil
      vacantScopes := fun _ h => absurd h List.not_mem_nil }
  · rw [hlookup, hlabel]
    exact ⟨fun h => absurd h (Option.some_ne_none id).symm, fun h => absurd h.1 Bool.false_ne_true⟩
  · rw [hscope, hlabel]
    exact ⟨fun h => absurd h List.not_mem_nil, fun h => absurd h.1 Bool.false_ne_true⟩
  · rw [hscope]
    exact .nil
  · rw [hscope]
    exact .nil
  · rw [hlookup]
    exact congrArg Prod.fst (LabelTree.marks_empty name)
  · exact congrArg Prod.snd (LabelTree.marks_empty name)
  · change id = globalScope ↔ id < 1 ∧ id ∉ []
    simp [globalScope]

theorem Valid.lt_of_live (hv : t.Valid h) (hid : id ∈ h.labels) : id < t.labels.size := ((hv.labels id).mp hid).1

theorem Valid.live_of_bound (hv : t.Valid h) (hbound : (t.label id).bound = true) : id ∈ h.labels := by
  refine (hv.labels id).mpr ⟨?_, fun hfree => ?_⟩
  · by_contra hle
    rw [SymbolTable.label, Array.getElem?_eq_none (Nat.le_of_not_lt hle)] at hbound
    cases hbound
  · rw [(hv.vacantLabels id hfree).2] at hbound
    cases hbound

theorem Valid.home_lt (hv : t.Valid h) (hid : id ∈ h.labels) :
    (t.label id).scope < t.scopes.size := ((hv.scopes _).mp (hv.home id hid)).1

/-! ## Showing and hiding -/

/-- A table stays valid when numbers stay in use, labels stay where they are and what was vacant stays so. -/
theorem Valid.sameNumbers (hv : t.Valid h) (hlabels : t'.labels.size = t.labels.size)
    (hscopes : t'.scopes.size = t.scopes.size) (hfreeLabels : t'.freeLabels = t.freeLabels)
    (hfreeScopes : t'.freeScopes = t.freeScopes) (hindexed : t'.Indexed)
    (hdefined : ∀ name, (t'.tree.marks name).1 = (t'.lookupIn? globalScope name).isSome)
    (hcounted : ∀ name, (t'.tree.marks name).2 = occurrences t'.references name)
    (hhome : ∀ j, (t'.label j).scope = (t.label j).scope)
    (hroot : (t'.scope globalScope).source = (t.scope globalScope).source)
    (hlabel : ∀ j ∈ t.freeLabels, t.label j = Label.vacant → t'.label j = Label.vacant)
    (hscope : ∀ j ∈ t.freeScopes, t.scope j = Scope.vacant → t'.scope j = Scope.vacant) : t'.Valid h where
  indexed := hindexed
  defined := hdefined
  counted := hcounted
  labels j := by rw [hlabels, hfreeLabels]; exact hv.labels j
  scopes j := by rw [hscopes, hfreeScopes]; exact hv.scopes j
  home j hj := by rw [hhome]; exact hv.home j hj
  root := hv.root
  rootSource := hroot.trans hv.rootSource
  freeLabels := by rw [hfreeLabels]; exact hv.freeLabels
  freeScopes := by rw [hfreeScopes]; exact hv.freeScopes
  vacantLabels j hj := by
    rw [hfreeLabels] at hj
    rw [hlabels]
    exact (hv.vacantLabels j hj).imp_right (hlabel j hj)
  vacantScopes j hj := by
    rw [hfreeScopes] at hj
    rw [hscopes]
    exact (hv.vacantScopes j hj).imp_right (hscope j hj)

/-- Showing a label in use under a name that is free keeps a table valid. -/
theorem Valid.bind (hv : t.Valid h) (hid : id ∈ h.labels) (hhidden : (t.label id).bound = false)
    (hnew : (t.label id).reach ≠ .nameless → t.lookupIn? (t.label id).scope (t.label id).name = none) :
    (t.bind id).Valid h := by
  have hkeeps := keeps_bind t id
  have hlt := hv.lt_of_live hid
  have hscopeOf : ∀ j, ((t.bind id).label j).scope = (t.label j).scope := by
    intro j
    rw [label_bind]
    split <;> rfl
  refine hv.sameNumbers hkeeps.labels hkeeps.scopes hkeeps.freeLabels hkeeps.freeScopes
    (hv.indexed.bind hlt hhidden (hv.home_lt hid) hnew) (fun name => ?_) (fun name => ?_) hscopeOf
    (source_bind t id globalScope) (fun j hj hvacant => ?_) fun j hj hvacant => ?_
  · rw [tree_bind, lookupIn_bind]
    have hroot := ((hv.scopes globalScope).mp hv.root).1
    by_cases hthis : (t.label id).reach ≠ .nameless ∧ (t.label id).scope = globalScope
    · rw [if_pos hthis, LabelTree.marks_insert]
      by_cases hname : name = (t.label id).name
      · rw [if_pos hname, if_pos ⟨hthis.1, hthis.2.symm, hroot, hname⟩]
        rfl
      · rw [if_neg hname, if_neg fun hall => hname hall.2.2.2]
        exact hv.defined name
    · rw [if_neg hthis, if_neg fun hall => hthis ⟨hall.1, hall.2.1.symm⟩]
      exact hv.defined name
  · rw [tree_bind, references_bind]
    split
    · rw [LabelTree.marks_insert]
      split
      · rename_i hname
        subst hname
        exact hv.counted _
      · exact hv.counted name
    · exact hv.counted name
  · have hne : j ≠ id := fun heq => ((hv.labels id).mp hid).2 (heq ▸ hj)
    rw [label_bind, if_neg fun hj' => hne hj'.1, hvacant]
  · have hne : j ≠ (t.label id).scope := fun heq => ((hv.scopes _).mp (hv.home id hid)).2 (heq ▸ hj)
    rw [scope_bind_of_ne hne, hvacant]

theorem Valid.unbind (hv : t.Valid h) (id : LabelId) : (t.unbind id).Valid h := by
  have hkeeps := keeps_unbind t id
  have hscopeOf : ∀ j, ((t.unbind id).label j).scope = (t.label j).scope := by
    intro j
    rw [label_unbind]
    split <;> rfl
  refine hv.sameNumbers hkeeps.labels hkeeps.scopes hkeeps.freeLabels hkeeps.freeScopes (hv.indexed.unbind id)
    (fun name => ?_) (fun name => ?_) hscopeOf (source_unbind t id globalScope) (fun j hj hvacant => ?_)
    fun j hj hvacant => ?_
  · rw [tree_unbind, lookupIn_unbind]
    by_cases hthis : (t.label id).bound = true ∧ (t.label id).reach ≠ .nameless ∧ (t.label id).scope = globalScope
    · rw [if_pos hthis, LabelTree.marks_remove]
      by_cases hname : name = (t.label id).name
      · have hfound : t.lookupIn? globalScope name = some id :=
          (hv.indexed.names globalScope name id).mpr ⟨hthis.1, hthis.2.1, hthis.2.2, hname.symm⟩
        rw [if_pos hname, if_pos ⟨hthis.1, hthis.2.1, hthis.2.2.symm, hname, hfound⟩]
        rfl
      · rw [if_neg hname, if_neg fun hall => hname hall.2.2.2.1]
        exact hv.defined name
    · rw [if_neg hthis, if_neg fun hall => hthis ⟨hall.1, hall.2.1, hall.2.2.1.symm⟩]
      exact hv.defined name
  · rw [tree_unbind, references_unbind]
    split
    · rw [LabelTree.marks_remove]
      split
      · rename_i hname
        subst hname
        exact hv.counted _
      · exact hv.counted name
    · exact hv.counted name
  · rw [label_unbind, hvacant]
    split <;> rfl
  · by_cases hbound : (t.label id).bound = true
    · have hhome := hv.home id (hv.live_of_bound hbound)
      have hne : j ≠ (t.label id).scope := fun heq => ((hv.scopes _).mp hhome).2 (heq ▸ hj)
      rw [scope_unbind_of_ne hne, hvacant]
    · rw [unbind_of_hidden t id (Bool.eq_false_iff.mpr hbound), hvacant]

theorem Valid.rebind (hv : t.Valid h) (hid : id ∈ h.labels) (hshown : t.rebind id = .ok t') : t'.Valid h := by
  unfold SymbolTable.rebind at hshown
  simp only at hshown
  split at hshown
  · cases hshown
    exact hv
  rename_i hbound
  have hhidden : (t.label id).bound = false := Bool.eq_false_iff.mpr hbound
  split at hshown
  · rename_i hreach
    cases hshown
    exact hv.bind hid hhidden fun hne => absurd hreach hne
  · rename_i hnone _
    cases hshown
    exact hv.bind hid hhidden fun _ => hnone
  · cases hshown

/-! ## Making labels and scopes -/

theorem addLabel_eq (t : SymbolTable) (l : Label) : (∃ free, t.freeLabels = (t.addLabel l).1 :: free ∧
      (t.addLabel l).2 = { t with labels := t.labels.setIfInBounds (t.addLabel l).1 l, freeLabels := free }) ∨
    t.freeLabels = [] ∧ (t.addLabel l).1 = t.labels.size ∧
      (t.addLabel l).2 = { t with labels := t.labels.push l } := by
  unfold addLabel
  cases hfree : t.freeLabels with
  | nil => exact .inr ⟨rfl, rfl, rfl⟩
  | cons id free => exact .inl ⟨free, rfl, rfl⟩

theorem label_setIfInBounds (labels : Array Label) (id other : LabelId) (l : Label) :
    (labels.setIfInBounds id l)[other]?.getD Label.vacant =
      if other = id ∧ other < labels.size then l else labels[other]?.getD Label.vacant := by
  rw [Array.getElem?_setIfInBounds]
  by_cases hid : id = other
  · subst hid
    by_cases hlt : id < labels.size
    · rw [if_pos rfl, if_pos hlt, if_pos ⟨rfl, hlt⟩]
      rfl
    · rw [if_pos rfl, if_neg hlt, if_neg fun hall => hlt hall.2, Array.getElem?_eq_none (Nat.le_of_not_lt hlt)]
  · rw [if_neg hid, if_neg fun hall => hid hall.1.symm]

theorem live_of_cons {free free' : List Nat} {id size : Nat} (hfree : free = id :: free') (hnodup : free.Nodup)
    (hid : id < size) (j : Nat) : j < size ∧ j ∉ free' ↔ j = id ∨ j < size ∧ j ∉ free := by
  subst hfree
  rw [List.nodup_cons] at hnodup
  rw [List.mem_cons]
  constructor
  · rintro ⟨hlt, hfresh⟩
    by_cases hj : j = id
    · exact .inl hj
    · exact .inr ⟨hlt, fun hmem => hmem.elim hj hfresh⟩
  · rintro (rfl | ⟨hlt, hfresh⟩)
    · exact ⟨hid, hnodup.1⟩
    · exact ⟨hlt, fun hj => hfresh (.inr hj)⟩

theorem live_of_nil {free : List Nat} (hfree : free = []) (size j : Nat) :
    j < size + 1 ∧ j ∉ free ↔ j = size ∨ j < size ∧ j ∉ free := by
  have hempty : j ∉ free := by rw [hfree]; exact List.not_mem_nil
  have hlt : j < size + 1 ↔ j = size ∨ j < size := by omega
  rw [hlt]
  tauto

theorem Valid.put (hv : t.Valid h) {l : Label} (hscopes : t'.scopes = t.scopes)
    (htree : t'.tree = t.tree) (hreferences : t'.references = t.references)
    (hfreeScopes : t'.freeScopes = t.freeScopes)
    (hlabel : ∀ j, t'.label j = if j = id then l else t.label j) (hold : (t.label id).bound = false)
    (hhidden : l.bound = false) (hhome : l.scope ∈ h.scopes) (hsize : t.labels.size ≤ t'.labels.size)
    (hfree : t'.freeLabels.Sublist t.freeLabels)
    (hlive : ∀ j, j < t'.labels.size ∧ j ∉ t'.freeLabels ↔ j = id ∨ j < t.labels.size ∧ j ∉ t.freeLabels) :
    t'.Valid { h with labels := insert id h.labels } := by
  have hscope : ∀ scope, t'.scope scope = t.scope scope := by
    intro scope
    unfold SymbolTable.scope
    rw [hscopes]
  refine
    { indexed := hv.indexed.congr (fun scope name => by rw [lookupIn?, hscope]; rfl) (fun scope => by rw [hscope])
        (fun j scope name => ?_) fun j scope place => ?_
      defined := fun name => ?_
      counted := fun name => by rw [htree, hreferences]; exact hv.counted name
      labels := fun j => ?_
      scopes := fun j => by rw [hscopes, hfreeScopes]; exact hv.scopes j
      home := fun j hj => ?_
      root := hv.root
      rootSource := by rw [hscope]; exact hv.rootSource
      freeLabels := hv.freeLabels.sublist hfree
      freeScopes := by rw [hfreeScopes]; exact hv.freeScopes
      vacantLabels := fun j hj => ?_
      vacantScopes := fun j hj => ?_ }
  · rw [hlabel]
    split
    · rename_i heq
      subst heq
      exact shownAs_of_hidden hhidden hold scope name
    · rfl
  · rw [hlabel]
    split
    · rename_i heq
      subst heq
      exact shownAt_of_hidden hhidden hold scope place
    · rfl
  · rw [htree, lookupIn?, hscope]
    exact hv.defined name
  · rw [Set.mem_insert_iff, hv.labels, hlive]
  · rw [hlabel]
    split
    · exact hhome
    · rename_i hne
      exact hv.home j ((Set.mem_insert_iff.mp hj).resolve_left hne)
  · obtain ⟨hlt, hvacant⟩ := hv.vacantLabels j (hfree.subset hj)
    have hne : j ≠ id := by
      rintro rfl
      exact ((hlive j).mpr (.inl rfl)).2 hj
    rw [hlabel, if_neg hne]
    exact ⟨Nat.lt_of_lt_of_le hlt hsize, hvacant⟩
  · rw [hfreeScopes] at hj
    rw [hscopes, hscope]
    exact hv.vacantScopes j hj

theorem Valid.addLabel (hv : t.Valid h) {l : Label} (hhidden : l.bound = false) (hhome : l.scope ∈ h.scopes) :
    (t.addLabel l).2.Valid { h with labels := insert (t.addLabel l).1 h.labels } ∧
      (t.addLabel l).2.label (t.addLabel l).1 = l := by
  rcases addLabel_eq t l with ⟨free, hfree, heq⟩ | ⟨hnone, hid, heq⟩
  · generalize (t.addLabel l).1 = id at hfree heq ⊢
    rw [heq]
    have hvacant := hv.vacantLabels id (by rw [hfree]; exact List.mem_cons_self)
    have hlabel : ∀ j, ({ t with labels := t.labels.setIfInBounds id l, freeLabels := free }
        : SymbolTable).label j = if j = id then l else t.label j := by
      intro j
      unfold SymbolTable.label
      rw [label_setIfInBounds]
      by_cases hj : j = id
      · rw [if_pos hj, if_pos ⟨hj, hj ▸ hvacant.1⟩]
      · rw [if_neg hj, if_neg fun hall => hj hall.1]
    refine ⟨hv.put rfl rfl rfl rfl hlabel (by rw [hvacant.2]; rfl) hhidden hhome ?_ ?_ fun j => ?_,
      by rw [hlabel, if_pos rfl]⟩
    · rw [Array.size_setIfInBounds]
    · rw [hfree]
      exact List.sublist_cons_self id free
    rw [Array.size_setIfInBounds]
    exact live_of_cons hfree hv.freeLabels hvacant.1 j
  · rw [hid, heq]
    have hlabel : ∀ j, ({ t with labels := t.labels.push l } : SymbolTable).label j =
        if j = t.labels.size then l else t.label j := by
      intro j
      unfold SymbolTable.label
      rw [Array.getElem?_push]
      by_cases hj : j = t.labels.size
      · rw [if_pos hj, if_pos hj]
        rfl
      · rw [if_neg hj, if_neg hj]
    have hbeyond : (t.label t.labels.size).bound = false := by
      rw [SymbolTable.label, Array.getElem?_eq_none (Nat.le_refl _)]
      rfl
    refine ⟨hv.put rfl rfl rfl rfl hlabel hbeyond hhidden hhome ?_ (.refl _) fun j => ?_, by rw [hlabel, if_pos rfl]⟩
    · rw [Array.size_push]
      exact Nat.le_succ _
    · rw [Array.size_push]
      exact live_of_nil hnone _ j

/-- What making a label does: it gets a number, is kept where its reach says, and is shown. -/
theorem createLabel_cases {token : Token} {scope : ScopeId} {kind : LabelKind} {allow : Bool}
    (hmade : t.createLabel token scope kind allow = .ok (id, t')) :
    ∃ l : Label, l.bound = false ∧ l.scope = t.keeper l.reach scope ∧
      (l.reach ≠ .nameless → t.lookupIn? l.scope l.name = none) ∧ id = (t.addLabel l).1 ∧
      t' = (t.addLabel l).2.bind (t.addLabel l).1 := by
  unfold createLabel at hmade
  split at hmade
  · cases hmade
  rename_i reach hreach
  split at hmade
  · cases hmade
  simp only at hmade
  split at hmade
  · cases hmade
    exact ⟨_, rfl, rfl, fun hne => absurd rfl hne, rfl, rfl⟩
  · rename_i hlookup
    cases hmade
    exact ⟨_, rfl, rfl, fun _ => hlookup, rfl, rfl⟩
  · cases hmade

theorem scopes_addLabel (t : SymbolTable) (l : Label) : (t.addLabel l).2.scopes = t.scopes := by
  unfold addLabel
  cases t.freeLabels <;> rfl

theorem Valid.createLabel (hv : t.Valid h) {token : Token} {scope : ScopeId} {kind : LabelKind}
    {allow : Bool} (hscope : scope ∈ h.scopes)
    (hmade : t.createLabel token scope kind allow = .ok (id, t')) :
    t'.Valid { h with labels := insert id h.labels } := by
  obtain ⟨l, hhidden, hkeeper, hnew, rfl, rfl⟩ := createLabel_cases hmade
  have hhome : l.scope ∈ h.scopes := by
    rw [hkeeper]
    rcases keeper_eq t l.reach scope with heq | ⟨heq, -⟩
    · rw [heq]
      exact hscope
    · rw [heq]
      exact hv.root
  obtain ⟨hadded, hlabel⟩ := hv.addLabel hhidden hhome
  refine hadded.bind (Set.mem_insert _ _) (by rw [hlabel]; exact hhidden) fun hreach => ?_
  rw [hlabel] at hreach ⊢
  unfold lookupIn? SymbolTable.scope
  rw [scopes_addLabel]
  exact hnew hreach

theorem Valid.putScope (hv : t.Valid h) {id : ScopeId} (kind : ScopeKind) (parent : Option ScopeId)
    (source : SourceId) (hlabels : t'.labels = t.labels) (htree : t'.tree = t.tree)
    (hreferences : t'.references = t.references) (hfreeLabels : t'.freeLabels = t.freeLabels)
    (hscope : ∀ j, t'.scope j = if j = id then { kind, parent, source } else t.scope j)
    (hold : t.scope id = Scope.vacant) (hroot : globalScope ≠ id) (hsize : t.scopes.size ≤ t'.scopes.size)
    (hfree : t'.freeScopes.Sublist t.freeScopes)
    (hlive : ∀ j, j < t'.scopes.size ∧ j ∉ t'.freeScopes ↔ j = id ∨ j < t.scopes.size ∧ j ∉ t.freeScopes) :
    t'.Valid { h with scopes := insert id h.scopes } := by
  have hlabel : ∀ j, t'.label j = t.label j := by
    intro j
    unfold SymbolTable.label
    rw [hlabels]
  have hnames : ∀ j name, t'.lookupIn? j name = t.lookupIn? j name := by
    intro j name
    unfold lookupIn?
    rw [hscope]
    split
    · rename_i heq
      rw [heq, hold]
      rfl
    · rfl
  have hnameless : ∀ j, (t'.scope j).nameless = (t.scope j).nameless := by
    intro j
    rw [hscope]
    split
    · rename_i heq
      rw [heq, hold]
      rfl
    · rfl
  refine
    { indexed := hv.indexed.congr hnames hnameless (fun j _ _ => by rw [hlabel]) fun j _ _ => by rw [hlabel]
      defined := fun name => by rw [htree, hnames]; exact hv.defined name
      counted := fun name => by rw [htree, hreferences]; exact hv.counted name
      labels := fun j => by rw [hlabels, hfreeLabels]; exact hv.labels j
      scopes := fun j => by rw [Set.mem_insert_iff, hv.scopes, hlive]
      home := fun j hj => by rw [hlabel]; exact Set.mem_insert_of_mem _ (hv.home j hj)
      root := Set.mem_insert_of_mem _ hv.root
      rootSource := by rw [hscope, if_neg hroot]; exact hv.rootSource
      freeLabels := by rw [hfreeLabels]; exact hv.freeLabels
      freeScopes := hv.freeScopes.sublist hfree
      vacantLabels := fun j hj => by rw [hlabels, hlabel]; exact hv.vacantLabels j (hfreeLabels ▸ hj)
      vacantScopes := fun j hj => ?_ }
  obtain ⟨hlt, hvacant⟩ := hv.vacantScopes j (hfree.subset hj)
  have hne : j ≠ id := by
    rintro rfl
    exact ((hlive j).mpr (.inl rfl)).2 hj
  rw [hscope, if_neg hne]
  exact ⟨Nat.lt_of_lt_of_le hlt hsize, hvacant⟩

theorem addScope_of_cons {id : ScopeId} {free : List ScopeId} {kind : ScopeKind} {parent : ScopeId}
    {source : SourceId} (hfree : t.freeScopes = id :: free) :
    t.addScope kind parent source =
      (id, { t.modifyScope id (fun s => { s with kind, parent := some parent, source }) with
        freeScopes := free }) := by
  unfold SymbolTable.addScope
  rw [hfree]

theorem Valid.addScope (hv : t.Valid h) (kind : ScopeKind) (parent : ScopeId) (source : SourceId) :
    (t.addScope kind parent source).2.Valid
      { h with scopes := insert (t.addScope kind parent source).1 h.scopes } := by
  have hroot := (hv.scopes globalScope).mp hv.root
  cases hfree : t.freeScopes with
  | cons id free =>
    rw [addScope_of_cons hfree]
    have hvacant := hv.vacantScopes id (by rw [hfree]; exact List.mem_cons_self)
    refine hv.putScope kind (some parent) source rfl rfl rfl rfl (fun j => ?_) hvacant.2 ?_ ?_ ?_ fun j => ?_
    · refine (scope_modifyScope t id j _).trans ?_
      by_cases hj : j = id
      · rw [if_pos ⟨hj, hj ▸ hvacant.1⟩, if_pos hj, hj, hvacant.2]
        rfl
      · rw [if_neg fun hall => hj hall.1, if_neg hj]
    · rintro rfl
      exact hroot.2 (by rw [hfree]; exact List.mem_cons_self)
    · exact Nat.le_of_eq Array.size_modify.symm
    · rw [hfree]
      exact List.sublist_cons_self id free
    · have hsize : (t.modifyScope id fun s => { s with kind, parent := some parent, source }).scopes.size =
          t.scopes.size := Array.size_modify
      rw [hsize]
      exact live_of_cons hfree hv.freeScopes hvacant.1 j
  | nil =>
    rw [addScope_of_free hfree]
    refine hv.putScope kind (some parent) source rfl rfl rfl rfl (fun j => ?_) ?_ (Nat.ne_of_lt hroot.1) ?_ (.refl _) fun j => ?_
    · unfold SymbolTable.scope
      rw [Array.getElem?_push]
      by_cases hj : j = t.scopes.size
      · rw [if_pos hj, if_pos hj]
        rfl
      · rw [if_neg hj, if_neg hj]
    · rw [SymbolTable.scope, Array.getElem?_eq_none (Nat.le_refl _)]
      rfl
    · rw [Array.size_push]
      exact Nat.le_succ _
    · rw [Array.size_push]
      exact live_of_nil hfree _ j

/-! ## Values, references, macros and groups -/

/-- A label in use changes, but for its name, its place and whether it is shown. -/
theorem Valid.modifyLabel (hv : t.Valid h) (hid : id ∉ t.freeLabels) {f : Label → Label}
    (hf : ∀ l, (f l).name = l.name ∧ (f l).reach = l.reach ∧ (f l).scope = l.scope ∧ (f l).token = l.token ∧
      (f l).bound = l.bound) : (t.modifyLabel id f).Valid h := by
  have hlabel := fun j => label_modifyLabel t id j f
  have hsize : (t.modifyLabel id f).labels.size = t.labels.size := Array.size_modify
  refine hv.sameNumbers hsize rfl rfl rfl
    (hv.indexed.congr (fun _ _ => rfl) (fun _ => rfl) (fun j scope name => ?_) fun j scope place => ?_)
    hv.defined hv.counted (fun j => ?_) rfl (fun j hj hvacant => ?_) fun _ _ hvacant => hvacant
  · obtain ⟨hname, hreach, hscope, -, hbound⟩ := hf (t.label j)
    rw [hlabel]
    split
    · unfold ShownAs
      rw [hname, hreach, hscope, hbound]
    · rfl
  · obtain ⟨-, hreach, hscope, htoken, hbound⟩ := hf (t.label j)
    rw [hlabel]
    split
    · unfold ShownAt
      rw [hreach, hscope, htoken, hbound]
    · rfl
  · rw [hlabel]
    split
    · exact (hf (t.label j)).2.2.1
    · rfl
  · have hne : j ≠ id := fun heq => hid (heq ▸ hj)
    rw [hlabel, if_neg fun hall => hne hall.1, hvacant]

theorem Valid.setValue (hv : t.Valid h) (hid : id ∈ h.labels) (value : Option Value) :
    (t.setValue id value).2.Valid h := by
  unfold SymbolTable.setValue
  split
  · exact hv
  · exact hv.modifyLabel ((hv.labels id).mp hid).2 fun _ => ⟨rfl, rfl, rfl, rfl, rfl⟩

theorem Valid.of_tree (hv : t.Valid h) (hlabel : ∀ j, t'.label j = t.label j)
    (hscope : ∀ j, t'.scope j = t.scope j) (hlabels : t'.labels.size = t.labels.size)
    (hscopes : t'.scopes.size = t.scopes.size) (hfreeLabels : t'.freeLabels = t.freeLabels)
    (hfreeScopes : t'.freeScopes = t.freeScopes)
    (hdefined : ∀ name, (t'.tree.marks name).1 = (t.tree.marks name).1)
    (hcounted : ∀ name, (t'.tree.marks name).2 = occurrences t'.references name) : t'.Valid h := by
  refine hv.sameNumbers hlabels hscopes hfreeLabels hfreeScopes
    (hv.indexed.congr (fun j _ => by rw [lookupIn?, hscope]; rfl) (fun j => by rw [hscope])
      (fun j _ _ => by rw [hlabel]) fun j _ _ => by rw [hlabel])
    (fun name => ?_) hcounted (fun j => by rw [hlabel]) (by rw [hscope]) (fun j _ => by rw [hlabel]; exact id)
    fun j _ => by rw [hscope]; exact id
  rw [hdefined, lookupIn?, hscope]
  exact hv.defined name

theorem Valid.addReference (hv : t.Valid h) (source : SourceId) (name : String) :
    (t.addReference source name).Valid h := by
  unfold SymbolTable.addReference
  split
  · refine hv.of_tree (fun _ => rfl) (fun _ => rfl) rfl rfl rfl rfl (fun other => ?_) fun other => ?_
    · change ((t.tree.addReference name).marks other).1 = _
      rw [LabelTree.marks_addReference]
      split
      · rename_i heq
        rw [heq]
      · rfl
    · change ((t.tree.addReference name).marks other).2 = occurrences (t.references.insert source _) other
      rw [LabelTree.marks_addReference, occurrences_insert, Array.count_push]
      have hcount := hv.counted other
      rw [occurrences_eq_add t.references source] at hcount
      by_cases heq : other = name
      · subst heq
        simp only [if_true, beq_self_eq_true]
        omega
      · have hne : (name == other) = false := beq_false_of_ne (Ne.symm heq)
        rw [if_neg heq, hne]
        simp only [Bool.false_eq_true, if_false]
        omega
  · exact hv

theorem Valid.defineMacro (hv : t.Valid h) {m : MacroDefinition} (hmade : t.defineMacro m = .ok t') : t'.Valid h := by
  unfold SymbolTable.defineMacro at hmade
  split at hmade
  · cases hmade
  · cases hmade
    exact hv.of_tree (fun _ => rfl) (fun _ => rfl) rfl rfl rfl rfl (fun _ => rfl) hv.counted

theorem Valid.addGroup (hv : t.Valid h) (g : DataGroup) : (t.addGroup g).Valid h := by
  unfold SymbolTable.addGroup
  split
  · exact hv.of_tree (fun _ => rfl) (fun _ => rfl) rfl rfl rfl rfl (fun _ => rfl) hv.counted
  · exact hv.of_tree (fun _ => rfl) (fun _ => rfl) rfl rfl rfl rfl (fun _ => rfl) hv.counted

end SymbolTable

end CrossAssembler
