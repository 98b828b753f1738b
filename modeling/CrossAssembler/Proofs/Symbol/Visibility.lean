import CrossAssembler.Proofs.Symbol.Search
import CrossAssembler.Proofs.Symbol.Tree

/-!
# Labels that are shown and hidden

* `label_bind`, `lookupIn_bind`, `nameless_bind`, `tree_bind` — what showing a label changes.
* `label_unbind`, `lookupIn_unbind`, `nameless_unbind`, `tree_unbind` — what hiding it changes.

Principal results: `Indexed.bind`, `Indexed.unbind` — labels and scopes stay in agreement.
-/

namespace CrossAssembler.SymbolTable

variable {t t' : SymbolTable}

/-! ## What showing and hiding changes -/

section Visibility

variable (t : SymbolTable) (id : LabelId)

theorem label_bind (other : LabelId) : (t.bind id).label other =
      if other = id ∧ other < t.labels.size then { t.label other with bound := true } else t.label other := by
  unfold bind
  simp only
  split
  · exact label_modifyLabel _ id other _
  · split <;> exact label_modifyLabel _ id other _

theorem lookupIn_bind (scope : ScopeId) (name : String) : (t.bind id).lookupIn? scope name =
      if (t.label id).reach ≠ .nameless ∧ scope = (t.label id).scope ∧ scope < t.scopes.size ∧
          name = (t.label id).name
      then some id else t.lookupIn? scope name := by
  by_cases hname : (t.label id).reach ≠ .nameless ∧ name = (t.label id).name
  · obtain ⟨hreach, rfl⟩ := hname
    have hscope : (t.bind id).scope scope = (t.modifyScope (t.label id).scope fun s =>
        { s with names := s.names.insert (t.label id).name id }).scope scope := by
      unfold bind
      simp only
      split <;> rfl
    unfold lookupIn?
    rw [hscope, scope_modifyScope]
    by_cases hhome : scope = (t.label id).scope ∧ scope < t.scopes.size
    · rw [if_pos hhome, if_pos ⟨hreach, hhome.1, hhome.2, rfl⟩, Std.TreeMap.getElem?_insert_self]
    · rw [if_neg hhome, if_neg fun h => hhome ⟨h.2.1, h.2.2.1⟩]
  · rw [if_neg fun h => hname ⟨h.1, h.2.2.2⟩]
    exact lookupIn_bind_of_ne fun hreach heq => hname ⟨hreach, heq⟩

theorem nameless_bind (scope : ScopeId) : ((t.bind id).scope scope).nameless =
      if (t.label id).reach = .nameless ∧ scope = (t.label id).scope ∧ scope < t.scopes.size then
        insertNameless ⟨(t.label id).token.line, (t.label id).token.column, id⟩ (t.scope scope).nameless
      else (t.scope scope).nameless := by
  by_cases hreach : (t.label id).reach = .nameless
  · have hscope : (t.bind id).scope scope = (t.modifyScope (t.label id).scope fun s =>
        { s with nameless :=
            insertNameless ⟨(t.label id).token.line, (t.label id).token.column, id⟩ s.nameless }).scope scope := by
      unfold bind
      simp only [hreach]
      rfl
    rw [hscope, scope_modifyScope]
    by_cases hhome : scope = (t.label id).scope ∧ scope < t.scopes.size
    · rw [if_pos hhome, if_pos ⟨hreach, hhome⟩]
    · rw [if_neg hhome, if_neg fun h => hhome h.2]
  · rw [if_neg fun h => hreach h.1]
    exact nameless_bind_of_ne fun h => absurd h hreach

theorem tree_bind : (t.bind id).tree = if (t.label id).reach ≠ .nameless ∧ (t.label id).scope = globalScope
      then t.tree.insert (t.label id).name else t.tree := by
  unfold bind
  simp only
  split
  · rename_i hreach
    rw [if_neg fun h => h.1 hreach]
    rfl
  rename_i hreach
  split
  · rename_i hglobal
    rw [if_pos ⟨hreach, hglobal⟩]
    rfl
  · rename_i hglobal
    rw [if_neg fun h => hglobal h.2]
    rfl

theorem unbind_of_hidden (h : (t.label id).bound = false) : t.unbind id = t := by
  unfold unbind
  simp only [h]
  rfl

theorem label_unbind (other : LabelId) : (t.unbind id).label other =
      if other = id then { t.label other with bound := false } else t.label other := by
  cases hbound : (t.label id).bound with
  | false =>
    rw [unbind_of_hidden t id hbound]
    split
    · rename_i heq
      subst heq
      rw [← hbound]
    · rfl
  | true =>
    have hlt : id < t.labels.size := by
      by_contra hle
      rw [SymbolTable.label, Array.getElem?_eq_none (Nat.le_of_not_lt hle)] at hbound
      cases hbound
    have hmodify : (t.unbind id).label other = (t.modifyLabel id fun l => { l with bound := false }).label other := by
      unfold unbind
      simp only [hbound, if_true]
      split
      · rfl
      · split <;> rfl
    rw [hmodify, label_modifyLabel]
    by_cases heq : other = id
    · rw [if_pos ⟨heq, heq ▸ hlt⟩, if_pos heq]
    · rw [if_neg fun h => heq h.1, if_neg heq]

theorem scope_unbind_of_named (hbound : (t.label id).bound = true) (hreach : (t.label id).reach ≠ .nameless)
    (scope : ScopeId) :
    (t.unbind id).scope scope = (t.modifyScope (t.label id).scope fun s =>
      if s.names[(t.label id).name]? = some id then { s with names := s.names.erase (t.label id).name }
      else s).scope scope := by
  unfold unbind
  simp only [hbound, if_true]
  split <;> rfl

theorem scope_unbind_of_nameless (hbound : (t.label id).bound = true)
    (hreach : (t.label id).reach = .nameless) (scope : ScopeId) :
    (t.unbind id).scope scope = (t.modifyScope (t.label id).scope fun s =>
      { s with nameless := s.nameless.filter fun e => e.label != id }).scope scope := by
  unfold unbind
  simp only [hbound, if_true, hreach]
  rfl

theorem lookupIn_unbind (scope : ScopeId) (name : String) : (t.unbind id).lookupIn? scope name =
      if (t.label id).bound = true ∧ (t.label id).reach ≠ .nameless ∧ scope = (t.label id).scope ∧
          name = (t.label id).name ∧ t.lookupIn? scope name = some id
      then none else t.lookupIn? scope name := by
  by_cases hbound : (t.label id).bound = true
  · by_cases hreach : (t.label id).reach = .nameless
    · rw [if_neg fun h => h.2.1 hreach, lookupIn?, scope_unbind_of_nameless t id hbound hreach, scope_modifyScope]
      split <;> rfl
    rw [lookupIn?, scope_unbind_of_named t id hbound hreach, scope_modifyScope]
    by_cases hhome : scope = (t.label id).scope ∧ scope < t.scopes.size
    · by_cases hfound : t.lookupIn? scope (t.label id).name = some id
      · rw [if_pos hhome, if_pos (by exact hfound), Std.TreeMap.getElem?_erase]
        by_cases hname : name = (t.label id).name
        · subst hname
          rw [if_pos Std.ReflOrd.compare_self, if_pos ⟨hbound, hreach, hhome.1, rfl, hfound⟩]
        · rw [if_neg fun heq => hname (Std.LawfulEqOrd.eq_of_compare heq).symm, if_neg fun h => hname h.2.2.2.1]
          rfl
      · rw [if_pos hhome, if_neg (by exact hfound), if_neg]
        · rfl
        · rintro ⟨-, -, -, rfl, hsome⟩
          exact hfound hsome
    · rw [if_neg hhome, if_neg]
      · rfl
      · rintro ⟨-, -, rfl, -, hfound⟩
        refine hhome ⟨rfl, ?_⟩
        by_contra hle
        rw [lookupIn?, SymbolTable.scope, Array.getElem?_eq_none (Nat.le_of_not_lt hle)] at hfound
        simp [Scope.vacant] at hfound
  · rw [unbind_of_hidden t id (Bool.eq_false_iff.mpr hbound), if_neg fun h => hbound h.1]

theorem nameless_unbind (scope : ScopeId) : ((t.unbind id).scope scope).nameless =
      if (t.label id).bound = true ∧ (t.label id).reach = .nameless ∧ scope = (t.label id).scope then
        (t.scope scope).nameless.filter fun e => e.label != id
      else (t.scope scope).nameless := by
  by_cases hbound : (t.label id).bound = true
  · by_cases hreach : (t.label id).reach = .nameless
    · rw [scope_unbind_of_nameless t id hbound hreach, scope_modifyScope]
      by_cases hhome : scope = (t.label id).scope
      · by_cases hlt : scope < t.scopes.size
        · rw [if_pos ⟨hhome, hlt⟩, if_pos ⟨hbound, hreach, hhome⟩]
        · rw [if_neg fun h => hlt h.2, if_pos ⟨hbound, hreach, hhome⟩, SymbolTable.scope,
            Array.getElem?_eq_none (Nat.le_of_not_lt hlt)]
          rfl
      · rw [if_neg fun h => hhome h.1, if_neg fun h => hhome h.2.2]
    · rw [if_neg fun h => hreach h.2.1, scope_unbind_of_named t id hbound hreach, scope_modifyScope]
      split
      · split <;> rfl
      · rfl
  · rw [unbind_of_hidden t id (Bool.eq_false_iff.mpr hbound), if_neg fun h => hbound h.1]

theorem tree_unbind : (t.unbind id).tree =
      if (t.label id).bound = true ∧ (t.label id).reach ≠ .nameless ∧ (t.label id).scope = globalScope
      then t.tree.remove (t.label id).name else t.tree := by
  by_cases hbound : (t.label id).bound = true
  · unfold unbind
    simp only [hbound, if_true, true_and]
    split
    · rename_i hreach
      rw [if_neg fun h => h.1 hreach]
      rfl
    rename_i hreach
    split
    · rename_i hglobal
      rw [if_pos ⟨hreach, hglobal⟩]
      rfl
    · rename_i hglobal
      rw [if_neg fun h => hglobal h.2]
      rfl
  · rw [unbind_of_hidden t id (Bool.eq_false_iff.mpr hbound), if_neg fun h => hbound h.1]

end Visibility

theorem source_bind (t : SymbolTable) (id : LabelId) (scope : ScopeId) :
    ((t.bind id).scope scope).source = (t.scope scope).source := by
  unfold bind
  simp only
  split
  · change ((t.modifyScope _ _).scope scope).source = _
    rw [scope_modifyScope]
    split <;> rfl
  split
  · change ((t.modifyScope _ _).scope scope).source = _
    rw [scope_modifyScope]
    split <;> rfl
  · change ((t.modifyScope _ _).scope scope).source = _
    rw [scope_modifyScope]
    split <;> rfl

theorem references_bind (t : SymbolTable) (id : LabelId) : (t.bind id).references = t.references := by
  unfold bind
  simp only
  split
  · rfl
  · split <;> rfl

theorem references_unbind (t : SymbolTable) (id : LabelId) : (t.unbind id).references = t.references := by
  by_cases hbound : (t.label id).bound = true
  · unfold unbind
    simp only [hbound, if_true]
    split
    · rfl
    · split <;> rfl
  · rw [unbind_of_hidden t id (Bool.eq_false_iff.mpr hbound)]

theorem source_unbind (t : SymbolTable) (id : LabelId) (scope : ScopeId) :
    ((t.unbind id).scope scope).source = (t.scope scope).source := by
  by_cases hbound : (t.label id).bound = true
  · by_cases hreach : (t.label id).reach = .nameless
    · rw [scope_unbind_of_nameless t id hbound hreach, scope_modifyScope]
      split <;> rfl
    · rw [scope_unbind_of_named t id hbound hreach, scope_modifyScope]
      split
      · split <;> rfl
      · rfl
  · rw [unbind_of_hidden t id (Bool.eq_false_iff.mpr hbound)]

/-- Only the scope that keeps a label changes when it is hidden. -/
theorem scope_unbind_of_ne {id : LabelId} {scope : ScopeId} (h : scope ≠ (t.label id).scope) :
    (t.unbind id).scope scope = t.scope scope := by
  by_cases hbound : (t.label id).bound = true
  · by_cases hreach : (t.label id).reach = .nameless
    · rw [scope_unbind_of_nameless t id hbound hreach, scope_modifyScope, if_neg fun hs => h hs.1]
    · rw [scope_unbind_of_named t id hbound hreach, scope_modifyScope, if_neg fun hs => h hs.1]
  · rw [unbind_of_hidden t id (Bool.eq_false_iff.mpr hbound)]


/-! ## Nameless labels in order -/

/-- Whether a nameless label does not come after another. -/
def NotAfter (a b : NamelessEntry) : Prop := placeBefore b.place a.place = false

instance (a b : NamelessEntry) : Decidable (NotAfter a b) := inferInstanceAs (Decidable (_ = _))

theorem notAfter_iff {a b : NamelessEntry} :
    NotAfter a b ↔ a.line < b.line ∨ a.line = b.line ∧ a.column ≤ b.column := by
  unfold NotAfter placeBefore NamelessEntry.place
  simp only [Bool.or_eq_false_iff, decide_eq_false_iff_not, Bool.and_eq_false_iff, beq_eq_false_iff_ne]
  omega

theorem NotAfter.trans {a b c : NamelessEntry} (h : NotAfter a b) (h' : NotAfter b c) : NotAfter a c := by
  rw [notAfter_iff] at *
  omega

theorem insertNameless_cons (e o : NamelessEntry) (es : List NamelessEntry) :
    insertNameless e (o :: es) = if NotAfter o e then o :: insertNameless e es else e :: o :: es := by
  unfold insertNameless
  rw [List.takeWhile_cons, List.dropWhile_cons]
  by_cases h : NotAfter o e
  · have hskip : placeBefore e.place o.place = false := h
    rw [if_pos h, hskip]
    rfl
  · have hstop : placeBefore e.place o.place = true := Bool.eq_true_of_not_eq_false h
    rw [if_neg h, hstop]
    rfl

theorem perm_insertNameless (e : NamelessEntry) (es : List NamelessEntry) : (insertNameless e es).Perm (e :: es) := by
  induction es with
  | nil => exact .refl _
  | cons o es ih =>
    rw [insertNameless_cons]
    split
    · exact (ih.cons o).trans (.swap e o es)
    · exact .refl _

theorem sorted_insertNameless (e : NamelessEntry) {es : List NamelessEntry} (h : es.Pairwise NotAfter) :
    (insertNameless e es).Pairwise NotAfter := by
  induction es with
  | nil => exact List.pairwise_singleton _ _
  | cons o es ih =>
    obtain ⟨ho, hes⟩ := List.pairwise_cons.mp h
    rw [insertNameless_cons]
    split
    · rename_i hbefore
      refine List.pairwise_cons.mpr ⟨fun other hother => ?_, ih hes⟩
      rcases List.mem_cons.mp ((perm_insertNameless e es).mem_iff.mp hother) with rfl | hother
      · exact hbefore
      · exact ho other hother
    · rename_i hafter
      have hfirst : NotAfter e o := by
        rw [notAfter_iff] at *
        omega
      refine List.pairwise_cons.mpr ⟨List.forall_mem_cons.mpr ⟨hfirst, fun other hother => ?_⟩, h⟩
      exact hfirst.trans (ho other hother)

/-! ## Agreement of labels and scopes -/

/-- Whether a label is shown in a scope under a name. -/
def ShownAs (l : Label) (scope : ScopeId) (name : String) : Prop :=
  l.bound = true ∧ l.reach ≠ .nameless ∧ l.scope = scope ∧ l.name = name

/-- Whether a nameless label is shown in a scope at a place. -/
def ShownAt (l : Label) (scope : ScopeId) (place : Nat × Nat) : Prop :=
  l.bound = true ∧ l.reach = .nameless ∧ l.scope = scope ∧ (l.token.line, l.token.column) = place

/-- Whether scopes have the names of the labels shown in them, and their nameless labels, each once and in
order. -/
structure Indexed (t : SymbolTable) : Prop where
  names : ∀ scope name id, t.lookupIn? scope name = some id ↔ ShownAs (t.label id) scope name
  nameless : ∀ scope e, e ∈ (t.scope scope).nameless ↔ ShownAt (t.label e.label) scope e.place
  once : ∀ scope, ((t.scope scope).nameless.map fun e => e.label).Nodup
  sorted : ∀ scope, (t.scope scope).nameless.Pairwise NotAfter

theorem Indexed.bind (h : t.Indexed) {id : LabelId} (hlt : id < t.labels.size)
    (hhidden : (t.label id).bound = false) (hhome : (t.label id).scope < t.scopes.size)
    (hnew : (t.label id).reach ≠ .nameless → t.lookupIn? (t.label id).scope (t.label id).name = none) :
    (t.bind id).Indexed := by
  have hfresh : ∀ scope e, e ∈ (t.scope scope).nameless → e.label ≠ id := by
    rintro scope e he rfl
    have hshown := ((h.nameless scope e).mp he).1
    rw [hhidden] at hshown
    cases hshown
  have hlabel : ∀ j, j ≠ id → (t.bind id).label j = t.label j := by
    intro j hj
    rw [label_bind, if_neg fun hj' => hj hj'.1]
  have hself : (t.bind id).label id = { t.label id with bound := true } := by
    rw [label_bind, if_pos ⟨rfl, hlt⟩]
  refine ⟨fun scope name j => ?_, fun scope e => ?_, fun scope => ?_, fun scope => ?_⟩
  · rw [lookupIn_bind]
    by_cases hj : j = id
    · subst hj
      rw [hself]
      split
      · rename_i hthis
        exact ⟨fun _ => ⟨rfl, hthis.1, hthis.2.1.symm, hthis.2.2.2.symm⟩, fun _ => rfl⟩
      rename_i hthis
      rw [h.names]
      constructor
      · intro hshown
        have hbound := hshown.1
        rw [hhidden] at hbound
        cases hbound
      · rintro ⟨-, hreach, rfl, rfl⟩
        exact absurd ⟨hreach, rfl, hhome, rfl⟩ hthis
    · rw [hlabel j hj]
      split
      · rename_i hthis
        obtain ⟨hreach, rfl, -, rfl⟩ := hthis
        rw [← h.names, hnew hreach]
        exact ⟨fun heq => absurd (Option.some.inj heq).symm hj, nofun⟩
      · exact h.names scope name j
  · rw [nameless_bind]
    split
    · rename_i hthis
      rw [(perm_insertNameless _ _).mem_iff, List.mem_cons]
      by_cases he : e.label = id
      · rw [he, hself]
        constructor
        · rintro (rfl | hold)
          · exact ⟨rfl, hthis.1, hthis.2.1.symm, rfl⟩
          · exact absurd he (hfresh scope e hold)
        · rintro ⟨-, -, -, hplace⟩
          left
          obtain ⟨hline, hcolumn⟩ := Prod.mk.inj hplace
          exact NamelessEntry.mk.injEq .. ▸ ⟨hline.symm, hcolumn.symm, he⟩
      · rw [hlabel _ he, ← h.nameless]
        refine ⟨fun hmem => hmem.resolve_left ?_, .inr⟩
        rintro rfl
        exact he rfl
    · rename_i hthis
      by_cases he : e.label = id
      · rw [he, hself]
        constructor
        · intro hold
          exact absurd he (hfresh scope e hold)
        · rintro ⟨-, hreach, rfl, -⟩
          exact absurd ⟨hreach, rfl, hhome⟩ hthis
      · rw [hlabel _ he]
        exact h.nameless scope e
  · rw [nameless_bind]
    split
    · rw [((perm_insertNameless _ _).map _).nodup_iff, List.map_cons, List.nodup_cons]
      refine ⟨fun hmem => ?_, h.once scope⟩
      obtain ⟨e, he, heq⟩ := List.mem_map.mp hmem
      exact hfresh scope e he heq
    · exact h.once scope
  · rw [nameless_bind]
    split
    · exact sorted_insertNameless _ (h.sorted scope)
    · exact h.sorted scope

theorem Indexed.unbind (h : t.Indexed) (id : LabelId) : (t.unbind id).Indexed := by
  have hlabel : ∀ j, j ≠ id → (t.unbind id).label j = t.label j := by
    intro j hj
    rw [label_unbind, if_neg hj]
  have hself : (t.unbind id).label id = { t.label id with bound := false } := by
    rw [label_unbind, if_pos rfl]
  refine ⟨fun scope name j => ?_, fun scope e => ?_, fun scope => ?_, fun scope => ?_⟩
  · rw [lookupIn_unbind]
    by_cases hj : j = id
    · subst hj
      rw [hself]
      refine ⟨fun hsome => ?_, fun hshown => nomatch hshown.1⟩
      split at hsome
      · cases hsome
      · rename_i hthis
        obtain ⟨hbound, hreach, rfl, rfl⟩ := (h.names scope name j).mp hsome
        exact absurd ⟨hbound, hreach, rfl, rfl, hsome⟩ hthis
    · rw [hlabel j hj]
      split
      · rename_i hthis
        rw [← h.names, hthis.2.2.2.2]
        exact ⟨nofun, fun heq => absurd (Option.some.inj heq).symm hj⟩
      · exact h.names scope name j
  · rw [nameless_unbind]
    by_cases he : e.label = id
    · rw [he, hself]
      refine ⟨fun hmem => ?_, fun hshown => nomatch hshown.1⟩
      split at hmem
      · have hne := (List.mem_filter.mp hmem).2
        rw [he, bne_self_eq_false] at hne
        cases hne
      · rename_i hthis
        have hshown := (h.nameless scope e).mp hmem
        rw [he] at hshown
        exact absurd ⟨hshown.1, hshown.2.1, hshown.2.2.1.symm⟩ hthis
    · rw [hlabel _ he, ← h.nameless]
      split
      · rw [List.mem_filter]
        exact ⟨fun hmem => hmem.1, fun hmem => ⟨hmem, by simpa using he⟩⟩
      · rfl
  · rw [nameless_unbind]
    split
    · exact (h.once scope).sublist (List.filter_sublist.map _)
    · exact h.once scope
  · rw [nameless_unbind]
    split
    · exact (h.sorted scope).sublist List.filter_sublist
    · exact h.sorted scope

theorem Indexed.congr (hi : t.Indexed) (hnames : ∀ scope name, t'.lookupIn? scope name = t.lookupIn? scope name)
    (hnameless : ∀ scope, (t'.scope scope).nameless = (t.scope scope).nameless)
    (has : ∀ id scope name, ShownAs (t'.label id) scope name ↔ ShownAs (t.label id) scope name)
    (hat : ∀ id scope place, ShownAt (t'.label id) scope place ↔ ShownAt (t.label id) scope place) :
    t'.Indexed where
  names scope name id := by
    rw [has, ← hi.names, hnames]
  nameless scope e := by
    rw [hat, ← hi.nameless, hnameless]
  once scope := by
    rw [hnameless]
    exact hi.once scope
  sorted scope := by
    rw [hnameless]
    exact hi.sorted scope

/-- Two labels that are hidden show the same. -/
theorem shownAs_of_hidden {l l' : Label} (hl : l.bound = false) (hl' : l'.bound = false) (scope : ScopeId)
    (name : String) : ShownAs l scope name ↔ ShownAs l' scope name :=
  ⟨fun hs => absurd hs.1 (by rw [hl]; nofun), fun hs => absurd hs.1 (by rw [hl']; nofun)⟩

theorem shownAt_of_hidden {l l' : Label} (hl : l.bound = false) (hl' : l'.bound = false) (scope : ScopeId)
    (place : Nat × Nat) : ShownAt l scope place ↔ ShownAt l' scope place :=
  ⟨fun hs => absurd hs.1 (by rw [hl]; nofun), fun hs => absurd hs.1 (by rw [hl']; nofun)⟩

end CrossAssembler.SymbolTable
