import CrossAssembler.Symbol.Table
import Mathlib

/-!
# Searches and the labels made since

Principal results: `findWithin_createLabel`, `findNameless_createLabel` — a search that has found a
label still finds it after a label is made in a scope of higher number, or globally.
-/

namespace CrossAssembler

/-- What a label is, whatever its value. -/
def Label.identity (l : Label) : LabelKind × Token := (l.kind, l.token)

namespace SymbolTable

variable {t t' : SymbolTable}
variable {label id : LabelId} {scope : ScopeId} {name : String} {s : Scope}

/-! ## Parts of the table -/

theorem scope_modifyScope (t : SymbolTable) (id scope : ScopeId) (f : Scope → Scope) :
    (t.modifyScope id f).scope scope =
      if scope = id ∧ scope < t.scopes.size then f (t.scope scope) else t.scope scope := by
  unfold SymbolTable.scope modifyScope
  simp only [Array.getElem?_modify]
  by_cases hscope : scope < t.scopes.size
  · by_cases hid : id = scope
    · simp [hid, hscope]
    · simp [hid, Ne.symm hid]
  · simp [hscope]

theorem label_modifyLabel (t : SymbolTable) (id label : LabelId) (f : Label → Label) :
    (t.modifyLabel id f).label label =
      if label = id ∧ label < t.labels.size then f (t.label label) else t.label label := by
  unfold SymbolTable.label modifyLabel
  simp only [Array.getElem?_modify]
  by_cases hlabel : label < t.labels.size
  · by_cases hid : id = label
    · simp [hid, hlabel]
    · simp [hid, Ne.symm hid]
  · simp [hlabel]

theorem lt_size_of_value {v : Value} (h : (t.label label).value = some v) : label < t.labels.size := by
  by_contra hle
  rw [SymbolTable.label, Array.getElem?_eq_none (Nat.le_of_not_lt hle)] at h
  cases h

theorem value_of_size_le (h : t.labels.size ≤ label) : (t.label label).value = none := by
  rw [SymbolTable.label, Array.getElem?_eq_none h]
  rfl

/-- Whether the ways outwards are the same, and labels but for their visibility. -/
structure Keeps (t t' : SymbolTable) : Prop where
  scopes : t'.scopes.size = t.scopes.size
  parent : ∀ scope, (t'.scope scope).parent = (t.scope scope).parent
  scopeKind : ∀ scope, (t'.scope scope).kind = (t.scope scope).kind
  labels : t'.labels.size = t.labels.size
  value : ∀ label, (t'.label label).value = (t.label label).value
  identity : ∀ label, (t'.label label).identity = (t.label label).identity
  groups : t'.groups = t.groups
  freeLabels : t'.freeLabels = t.freeLabels
  freeScopes : t'.freeScopes = t.freeScopes

namespace Keeps

theorem refl (t : SymbolTable) : Keeps t t :=
  ⟨rfl, fun _ => rfl, fun _ => rfl, rfl, fun _ => rfl, fun _ => rfl, rfl, rfl, rfl⟩

theorem kind (h : Keeps t t') (label : LabelId) : (t'.label label).kind = (t.label label).kind :=
  congrArg Prod.fst (h.identity label)

theorem trans {t'' : SymbolTable} (h : Keeps t t') (h' : Keeps t' t'') : Keeps t t'' where
  scopes := h'.scopes.trans h.scopes
  parent scope := (h'.parent scope).trans (h.parent scope)
  scopeKind scope := (h'.scopeKind scope).trans (h.scopeKind scope)
  labels := h'.labels.trans h.labels
  value label := (h'.value label).trans (h.value label)
  identity label := (h'.identity label).trans (h.identity label)
  groups := h'.groups.trans h.groups
  freeLabels := h'.freeLabels.trans h.freeLabels
  freeScopes := h'.freeScopes.trans h.freeScopes

theorem modifyScope (t : SymbolTable) (id : ScopeId) {f : Scope → Scope}
    (hparent : ∀ s, (f s).parent = s.parent) (hkind : ∀ s, (f s).kind = s.kind) :
    Keeps t (t.modifyScope id f) := by
  refine ⟨Array.size_modify, fun scope => ?_, fun scope => ?_, rfl, fun _ => rfl, fun _ => rfl, rfl, rfl, rfl⟩
  · rw [scope_modifyScope]
    split
    · exact hparent _
    · rfl
  · rw [scope_modifyScope]
    split
    · exact hkind _
    · rfl

theorem modifyLabel (t : SymbolTable) (id : LabelId) {f : Label → Label}
    (hvalue : ∀ l, (f l).value = l.value) (hidentity : ∀ l, (f l).identity = l.identity) :
    Keeps t (t.modifyLabel id f) := by
  refine ⟨rfl, fun _ => rfl, fun _ => rfl, Array.size_modify, fun label => ?_, fun label => ?_, rfl, rfl, rfl⟩
  · rw [label_modifyLabel]
    split
    · exact hvalue _
    · rfl
  · rw [label_modifyLabel]
    split
    · exact hidentity _
    · rfl

theorem withTree (t : SymbolTable) (tree : LabelTree) : Keeps t { t with tree } :=
  ⟨rfl, fun _ => rfl, fun _ => rfl, rfl, fun _ => rfl, fun _ => rfl, rfl, rfl, rfl⟩

end Keeps

/-! ## Showing and hiding labels -/

theorem keeps_bind (t : SymbolTable) (id : LabelId) : Keeps t (t.bind id) := by
  unfold bind
  refine Keeps.trans ?_ (Keeps.modifyLabel _ id (fun _ => rfl) fun _ => rfl)
  split
  · exact Keeps.modifyScope _ _ (fun _ => rfl) fun _ => rfl
  have hscope := Keeps.modifyScope t (t.label id).scope
    (f := fun s => { s with names := s.names.insert (t.label id).name id })
    (fun _ => rfl) fun _ => rfl
  simp only
  split
  · exact hscope.trans (Keeps.withTree _ _)
  · exact hscope

theorem keeps_unbind (t : SymbolTable) (id : LabelId) : Keeps t (t.unbind id) := by
  unfold unbind
  simp only
  split
  · refine Keeps.trans ?_ (Keeps.modifyLabel _ id (fun _ => rfl) fun _ => rfl)
    split
    · exact Keeps.modifyScope _ _ (fun _ => rfl) fun _ => rfl
    have hscope := Keeps.modifyScope t (t.label id).scope (f := fun s => if s.names[(t.label id).name]? = some id
        then { s with names := s.names.erase (t.label id).name } else s)
      (fun s => by split <;> rfl) fun s => by split <;> rfl
    split
    · exact hscope.trans (Keeps.withTree _ _)
    · exact hscope
  · exact Keeps.refl t

theorem keeps_rebind (h : t.rebind id = .ok t') : Keeps t t' := by
  unfold rebind at h
  simp only at h
  split at h
  · cases h
    exact Keeps.refl t
  split at h
  · cases h
    exact keeps_bind t id
  · cases h
    exact keeps_bind t id
  · cases h

theorem scope_bind_of_ne (h : scope ≠ (t.label id).scope) : (t.bind id).scope scope = t.scope scope := by
  unfold bind
  simp only
  split
  · change (t.modifyScope _ _).scope scope = _
    rw [scope_modifyScope, if_neg fun hs => h hs.1]
  · split
    · change (t.modifyScope _ _).scope scope = _
      rw [scope_modifyScope, if_neg fun hs => h hs.1]
    · change (t.modifyScope _ _).scope scope = _
      rw [scope_modifyScope, if_neg fun hs => h hs.1]

theorem lookupIn_bind_of_ne (h : (t.label id).reach ≠ .nameless → name ≠ (t.label id).name) :
    (t.bind id).lookupIn? scope name = t.lookupIn? scope name := by
  by_cases hscope : scope = (t.label id).scope
  · unfold lookupIn? bind
    simp only
    split
    · change ((t.modifyScope _ _).scope scope).names[name]? = _
      rw [scope_modifyScope]
      split <;> rfl
    rename_i hreach
    have hne : (t.label id).name ≠ name := (h hreach).symm
    have hnames : ∀ s : Scope, (s.names.insert (t.label id).name id)[name]? = s.names[name]? := by
      intro s
      rw [Std.TreeMap.getElem?_insert, if_neg]
      exact fun heq => hne (Std.LawfulEqOrd.eq_of_compare heq)
    split
    · change ((t.modifyScope _ _).scope scope).names[name]? = _
      rw [scope_modifyScope]
      split
      · exact hnames _
      · rfl
    · change ((t.modifyScope _ _).scope scope).names[name]? = _
      rw [scope_modifyScope]
      split
      · exact hnames _
      · rfl
  · unfold lookupIn?
    rw [scope_bind_of_ne hscope]

theorem nameless_bind_of_ne (h : (t.label id).reach = .nameless → scope ≠ (t.label id).scope) :
    ((t.bind id).scope scope).nameless = (t.scope scope).nameless := by
  by_cases hscope : scope = (t.label id).scope
  · unfold bind
    simp only
    split
    · rename_i hreach
      exact absurd hscope (h hreach)
    split
    · change ((t.modifyScope _ _).scope scope).nameless = _
      rw [scope_modifyScope]
      split <;> rfl
    · change ((t.modifyScope _ _).scope scope).nameless = _
      rw [scope_modifyScope]
      split <;> rfl
  · rw [scope_bind_of_ne hscope]

/-! ## Making labels -/

theorem addLabel_of_free {l : Label} (hfree : t.freeLabels = []) :
    t.addLabel l = (t.labels.size, { t with labels := t.labels.push l }) := by
  unfold addLabel
  rw [hfree]

/-- What making a label does: it is added behind all others, kept where its reach says, and shown. -/
theorem createLabel_eq_ok {token : Token} {kind : LabelKind} {allow : Bool} (hfree : t.freeLabels = [])
    (h : t.createLabel token scope kind allow = .ok (id, t')) :
    ∃ l : Label, l.identity = (kind, token) ∧ l.value = none ∧ l.scope = t.keeper l.reach scope ∧
      (l.reach ≠ .nameless → t.lookupIn? l.scope l.name = none) ∧ id = t.labels.size ∧
      t' = { t with labels := t.labels.push l }.bind id := by
  unfold createLabel at h
  split at h
  · cases h
  rename_i reach hreach
  split at h
  · cases h
  simp only [addLabel_of_free hfree] at h
  split at h
  · cases h
    exact ⟨_, rfl, rfl, rfl, fun hne => absurd rfl hne, rfl, rfl⟩
  · rename_i hlookup
    cases h
    exact ⟨_, rfl, rfl, rfl, fun _ => hlookup, rfl, rfl⟩
  · cases h

theorem keeper_eq (t : SymbolTable) (reach : NameScope) (scope : ScopeId) :
    t.keeper reach scope = scope ∨ t.keeper reach scope = globalScope ∧ reach = .global := by
  unfold keeper
  split
  · exact .inr ⟨rfl, rfl⟩
  · exact .inl rfl

section Pushed

variable {l : Label}

theorem label_push_self : ({ t with labels := t.labels.push l }).label t.labels.size = l := by
  simp [SymbolTable.label]

theorem label_push_of_lt {label : LabelId} (h : label < t.labels.size) :
    ({ t with labels := t.labels.push l }).label label = t.label label := by
  simp [SymbolTable.label, Array.getElem?_push, Nat.ne_of_lt h]

end Pushed

section Created

variable {token : Token} {scope : ScopeId} {kind : LabelKind} {allow : Bool} {id : LabelId}

theorem scopes_createLabel (hfree : t.freeLabels = []) (h : t.createLabel token scope kind allow = .ok (id, t')) :
    t'.scopes.size = t.scopes.size ∧ t'.freeScopes = t.freeScopes ∧ t'.freeLabels = [] ∧
      ∀ scope, (t'.scope scope).parent = (t.scope scope).parent := by
  obtain ⟨l, -, -, -, -, rfl, rfl⟩ := createLabel_eq_ok hfree h
  have hkeeps := keeps_bind { t with labels := t.labels.push l } t.labels.size
  exact ⟨hkeeps.scopes, hkeeps.freeScopes, hkeeps.freeLabels.trans hfree, hkeeps.parent⟩

theorem labels_createLabel (hfree : t.freeLabels = []) (h : t.createLabel token scope kind allow = .ok (id, t')) :
    id = t.labels.size ∧ t'.labels.size = t.labels.size + 1 := by
  obtain ⟨l, -, -, -, -, rfl, rfl⟩ := createLabel_eq_ok hfree h
  exact ⟨rfl, (keeps_bind _ _).labels.trans (Array.size_push l)⟩

theorem value_createLabel (hfree : t.freeLabels = [])
    (h : t.createLabel token scope kind allow = .ok (id, t')) (label : LabelId) :
    (t'.label label).value = (t.label label).value := by
  obtain ⟨l, -, hvalue, -, -, rfl, rfl⟩ := createLabel_eq_ok hfree h
  rw [(keeps_bind _ _).value]
  rcases Nat.lt_trichotomy label t.labels.size with hlt | rfl | hgt
  · rw [label_push_of_lt hlt]
  · rw [label_push_self, hvalue, value_of_size_le (Nat.le_refl _)]
  · rw [value_of_size_le (Nat.le_of_lt hgt), value_of_size_le (Array.size_push l ▸ hgt)]

theorem identity_createLabel (hfree : t.freeLabels = []) (h : t.createLabel token scope kind allow = .ok (id, t')) :
    (∀ label < t.labels.size, (t'.label label).identity = (t.label label).identity) ∧
      (t'.label t.labels.size).identity = (kind, token) ∧ t'.groups = t.groups := by
  obtain ⟨l, hidentity, -, -, -, rfl, rfl⟩ := createLabel_eq_ok hfree h
  refine ⟨fun label hlt => ?_, ?_, (keeps_bind _ _).groups⟩
  · rw [(keeps_bind _ _).identity, label_push_of_lt hlt]
  · rw [(keeps_bind _ _).identity, label_push_self]
    exact hidentity

theorem kind_createLabel (hfree : t.freeLabels = [])
    (h : t.createLabel token scope kind allow = .ok (id, t')) (label : LabelId) :
    (t'.label label).kind = (t.label label).kind ∨ (t'.label label).kind = kind := by
  obtain ⟨l, hidentity, -, -, -, rfl, rfl⟩ := createLabel_eq_ok hfree h
  rw [(keeps_bind _ _).kind]
  rcases Nat.lt_trichotomy label t.labels.size with hlt | rfl | hgt
  · rw [label_push_of_lt hlt]
    exact .inl rfl
  · rw [label_push_self]
    exact .inr (congrArg Prod.fst hidentity)
  · left
    have hsize : (t.labels.push l).size ≤ label := by
      rw [Array.size_push]
      omega
    unfold SymbolTable.label
    rw [Array.getElem?_eq_none hsize, Array.getElem?_eq_none (Nat.le_of_lt hgt)]

/-- A label made in a scope of higher number does not change what a search outwards finds. A global one
cannot either: the search would have ended there without a label. -/
theorem findWithin_createLabel (hfree : t.freeLabels = [])
    (houtwards : ∀ scope parent, (t.scope scope).parent = some parent → parent < scope)
    (h : t.createLabel token scope kind allow = .ok (id, t')) {name : String} {label : LabelId} :
    ∀ {n : Nat} {from' : ScopeId}, from' < scope → t.findWithin name n from' = some label →
      t'.findWithin name n from' = some label
  | 0, _, _, hfound => by cases hfound
  | n + 1, from', hlt, hfound => by
    have hparent := (scopes_createLabel hfree h).2.2.2 from'
    -- the one place where the look-up could differ is the global scope, under the new name
    have hlookup : t'.lookupIn? from' name = t.lookupIn? from' name ∨
        t.lookupIn? from' name = none ∧ from' = globalScope := by
      obtain ⟨l, -, -, hscope, hnone, rfl, rfl⟩ := createLabel_eq_ok hfree h
      by_cases hname : l.reach ≠ .nameless ∧ name = l.name ∧ from' = l.scope
      · obtain ⟨hreach, rfl, rfl⟩ := hname
        refine .inr ⟨hnone hreach, ?_⟩
        rcases keeper_eq t l.reach scope with hkeeper | hkeeper
        · rw [hscope, hkeeper] at hlt
          exact absurd hlt (Nat.lt_irrefl _)
        · rw [hscope, hkeeper.1]
      · left
        by_cases hfrom : from' = l.scope
        · rw [lookupIn_bind_of_ne]
          · rfl
          · rw [label_push_self]
            exact fun hreach heq => hname ⟨hreach, heq, hfrom⟩
        · unfold lookupIn?
          rw [scope_bind_of_ne]
          · rfl
          · rw [label_push_self]
            exact hfrom
    unfold findWithin at hfound ⊢
    rcases hlookup with hlookup | ⟨hnone, rfl⟩
    · rw [hlookup, hparent]
      split at hfound
      · exact hfound
      · split at hfound
        · rename_i parent hp
          exact findWithin_createLabel hfree houtwards h (Nat.lt_trans (houtwards _ _ hp) hlt) hfound
        · cases hfound
    · rw [hnone] at hfound
      simp only at hfound
      split at hfound
      · rename_i parent hp
        exact absurd (houtwards _ _ hp) (Nat.not_lt_zero _)
      · cases hfound

theorem findNameless_createLabel (hfree : t.freeLabels = [])
    (h : t.createLabel token scope kind allow = .ok (id, t')) {r : Reference} {from' : ScopeId}
    {line column : Nat} (hlt : from' < scope) :
    t'.findNameless? r from' line column = t.findNameless? r from' line column := by
  obtain ⟨l, -, -, hscope, -, rfl, rfl⟩ := createLabel_eq_ok hfree h
  have hhome : ({ t with labels := t.labels.push l }.bind t.labels.size).namelessHome from' =
      t.namelessHome from' := by
    unfold namelessHome
    rw [(keeps_bind _ _).scopeKind]
    rfl
  have hle : t.namelessHome from' ≤ from' := by
    unfold namelessHome
    split
    · exact Nat.zero_le _
    · exact Nat.le_refl _
  have hne : l.reach = .nameless → t.namelessHome from' ≠ l.scope := by
    intro hreach heq
    rcases keeper_eq t l.reach scope with hkeeper | hkeeper
    · rw [hscope, hkeeper] at heq
      exact Nat.not_le_of_lt hlt (heq ▸ hle)
    · rw [hreach] at hkeeper
      cases hkeeper.2
  have hnameless : (({ t with labels := t.labels.push l }.bind t.labels.size).scope
      (t.namelessHome from')).nameless = (t.scope (t.namelessHome from')).nameless := by
    refine nameless_bind_of_ne ?_
    rw [label_push_self]
    exact hne
  unfold findNameless?
  rw [hhome, hnameless]

/-- **What a reference names stays the same when a label is made in a scope of higher number.** -/
theorem resolve_createLabel (hfree : t.freeLabels = [])
    (houtwards : ∀ scope parent, (t.scope scope).parent = some parent → parent < scope)
    (h : t.createLabel token scope kind allow = .ok (id, t')) {r : Reference} {from' : ScopeId}
    {line column : Nat} {label : LabelId} (hlt : from' < scope)
    (hfound : t.resolve? r from' line column = some label) :
    t'.resolve? r from' line column = some label := by
  cases r with
  | named name =>
    change t'.findWithin name (t'.scopes.size + 1) from' = some label
    rw [(scopes_createLabel hfree h).1]
    exact findWithin_createLabel hfree houtwards h hlt hfound
  | forward count | backward count =>
    change t'.findNameless? _ from' line column = some label
    rw [findNameless_createLabel hfree h hlt]
    exact hfound
  | here => exact hfound

end Created

/-! ## Making scopes -/

theorem addScope_of_free {kind : ScopeKind} {parent : ScopeId} {source : SourceId} (hfree : t.freeScopes = []) :
    t.addScope kind parent source = (t.scopes.size,
      { t with scopes := t.scopes.push { kind, parent := some parent, source } }) := by
  unfold addScope
  rw [hfree]

theorem scope_push_of_lt (h : scope < t.scopes.size) :
    ({ t with scopes := t.scopes.push s }).scope scope = t.scope scope := by
  simp [SymbolTable.scope, Array.getElem?_push, Nat.ne_of_lt h]

theorem findWithin_succ : ∀ {n : Nat} {scope : ScopeId}, t.findWithin name n scope = some label →
      t.findWithin name (n + 1) scope = some label
  | 0, _, h => by cases h
  | n + 1, scope, h => by
    unfold findWithin at h ⊢
    split at h
    · exact h
    · split at h
      · rename_i parent hparent
        exact findWithin_succ h
      · cases h

theorem findWithin_push (houtwards : ∀ scope parent, (t.scope scope).parent = some parent → parent < scope) :
    ∀ {n : Nat} {scope : ScopeId}, scope < t.scopes.size → t.findWithin name n scope = some label →
      ({ t with scopes := t.scopes.push s }).findWithin name n scope = some label
  | 0, _, _, h => by cases h
  | n + 1, scope, hlt, h => by
    unfold findWithin lookupIn? at h ⊢
    rw [scope_push_of_lt hlt]
    split at h
    · exact h
    · split at h
      · rename_i parent hparent
        exact findWithin_push houtwards (Nat.lt_trans (houtwards _ _ hparent) hlt) h
      · cases h

/-- **What a reference names stays the same when a scope is made.** -/
theorem resolve_push (houtwards : ∀ scope parent, (t.scope scope).parent = some parent → parent < scope)
    {r : Reference} {line column : Nat}
    (hlt : scope < t.scopes.size) (hfound : t.resolve? r scope line column = some label) :
    ({ t with scopes := t.scopes.push s }).resolve? r scope line column = some label := by
  have hnameless : ∀ r, ({ t with scopes := t.scopes.push s }).findNameless? r scope line column =
      t.findNameless? r scope line column := by
    intro r
    have hhome : ({ t with scopes := t.scopes.push s }).namelessHome scope = t.namelessHome scope := by
      unfold namelessHome
      rw [scope_push_of_lt hlt]
    have hle : t.namelessHome scope < t.scopes.size := by
      unfold namelessHome
      split
      · exact Nat.lt_of_le_of_lt (Nat.zero_le _) hlt
      · exact hlt
    unfold findNameless?
    rw [hhome, scope_push_of_lt hle]
  cases r with
  | named name =>
    change ({ t with scopes := t.scopes.push s }).findWithin name ((t.scopes.push s).size + 1) scope = some label
    rw [Array.size_push]
    exact findWithin_succ (findWithin_push houtwards hlt hfound)
  | forward count | backward count => exact (hnameless _).trans hfound
  | here => exact hfound

theorem resolve_congr (h : t'.scopes = t.scopes) (r : Reference) (scope : ScopeId)
    (line column : Nat) : t'.resolve? r scope line column = t.resolve? r scope line column := by
  have hscope : ∀ scope, t'.scope scope = t.scope scope := by
    intro scope
    unfold SymbolTable.scope
    rw [h]
  have hfind : ∀ name n scope, t'.findWithin name n scope = t.findWithin name n scope := by
    intro name n
    induction n with
    | zero => exact fun _ => rfl
    | succ n ih =>
      intro scope
      simp only [findWithin, lookupIn?, hscope, ih]
  cases r with
  | named name => simp only [resolve?, findLabel?, h, hfind]
  | forward count | backward count => simp only [resolve?, findNameless?, namelessHome, hscope]
  | here => rfl

end SymbolTable

end CrossAssembler
