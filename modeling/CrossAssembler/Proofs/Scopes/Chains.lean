import CrossAssembler.Proofs.Symbol.Clearing

/-!
# The ways outwards

A number of a scope may be handed out again, so a scope can have a lower number than one it lies in. What
orders scopes is a rank, which nothing computes.

Principal results: `Rooted.addScope`, `Rooted.releaseFile`, `Rooted.lexical`.
-/

namespace CrossAssembler.SymbolTable

variable {t t' : SymbolTable} {h : Handles} {scope : ScopeId}

/-- Whether a number is that of a scope in use. -/
def InUse (t : SymbolTable) (scope : ScopeId) : Prop := scope < t.scopes.size ∧ scope ∉ t.freeScopes

/-- Whether scopes in use lie in others in use, up to the global one. A scope belongs to the source of the one it
lies in, unless that is the global scope. -/
structure Rooted (t : SymbolTable) : Prop where
  valid : ∃ h, t.Valid h
  root : (t.scope globalScope).parent = none
  inside : ∀ scope, t.InUse scope → scope ≠ globalScope → ∃ parent, (t.scope scope).parent = some parent ∧
    t.InUse parent ∧ (parent = globalScope ∨ (t.scope parent).source = (t.scope scope).source)
  ranked : ∃ rank : ScopeId → Nat, ∀ scope parent, t.InUse scope → (t.scope scope).parent = some parent →
    rank parent < rank scope

theorem rooted_empty : empty.Rooted where
  valid := ⟨_, valid_empty⟩
  root := rfl
  inside := by
    rintro scope ⟨hlt, -⟩ hroot
    exact absurd (Nat.lt_one_iff.mp hlt) hroot
  ranked := by
    refine ⟨fun _ => 0, fun scope parent hused hparent => ?_⟩
    rw [Nat.lt_one_iff.mp hused.1] at hparent
    cases hparent

theorem Valid.inUse_iff (hv : t.Valid h) : t.InUse scope ↔ scope ∈ h.scopes := (hv.scopes scope).symm

theorem Rooted.inUse_root (hr : t.Rooted) : t.InUse globalScope := by
  obtain ⟨h, hv⟩ := hr.valid
  exact hv.inUse_iff.mpr hv.root

/-! ## Operations that make no scope -/

/-- Whether scopes stay as they are, but for the labels in them. -/
structure Retains (t t' : SymbolTable) : Prop where
  size : t'.scopes.size = t.scopes.size
  free : t'.freeScopes = t.freeScopes
  kind : ∀ scope, (t'.scope scope).kind = (t.scope scope).kind
  parent : ∀ scope, (t'.scope scope).parent = (t.scope scope).parent
  source : ∀ scope, (t'.scope scope).source = (t.scope scope).source
  labels : t.labels.size ≤ t'.labels.size
  freeLabels : t.freeLabels = [] → t'.freeLabels = []
  valid : (∃ h, t.Valid h) → ∃ h, t'.Valid h

namespace Retains

variable {id : LabelId}

theorem refl (t : SymbolTable) : Retains t t :=
  ⟨rfl, rfl, fun _ => rfl, fun _ => rfl, fun _ => rfl, Nat.le_refl _, id, id⟩

theorem trans {t'' : SymbolTable} (h : Retains t t') (h' : Retains t' t'') : Retains t t'' where
  size := h'.size.trans h.size
  free := h'.free.trans h.free
  kind scope := (h'.kind scope).trans (h.kind scope)
  parent scope := (h'.parent scope).trans (h.parent scope)
  source scope := (h'.source scope).trans (h.source scope)
  labels := Nat.le_trans h.labels h'.labels
  freeLabels hnone := h'.freeLabels (h.freeLabels hnone)
  valid hv := h'.valid (h.valid hv)

theorem inUse_iff (hr : Retains t t') (scope : ScopeId) : t'.InUse scope ↔ t.InUse scope := by
  rw [InUse, InUse, hr.size, hr.free]

theorem rooted (hr : Retains t t') (ht : t.Rooted) : t'.Rooted where
  valid := hr.valid ht.valid
  root := (hr.parent globalScope).trans ht.root
  inside scope hused hroot := by
    obtain ⟨parent, hparent, hin, hsource⟩ := ht.inside scope ((hr.inUse_iff scope).mp hused) hroot
    refine ⟨parent, (hr.parent scope).trans hparent, (hr.inUse_iff parent).mpr hin, ?_⟩
    rw [hr.source, hr.source]
    exact hsource
  ranked := by
    obtain ⟨rank, hrank⟩ := ht.ranked
    refine ⟨rank, fun scope parent hused hparent => ?_⟩
    rw [hr.parent] at hparent
    exact hrank scope parent ((hr.inUse_iff scope).mp hused) hparent

theorem of_keeps (hk : Keeps t t') (hsource : ∀ scope, (t'.scope scope).source = (t.scope scope).source)
    (hv : (∃ h, t.Valid h) → ∃ h, t'.Valid h) : Retains t t' where
  size := hk.scopes
  free := hk.freeScopes
  kind := hk.scopeKind
  parent := hk.parent
  source := hsource
  labels := Nat.le_of_eq hk.labels.symm
  freeLabels hnone := hk.freeLabels.trans hnone
  valid := hv

theorem of_scopes (hscopes : t'.scopes = t.scopes) (hfree : t'.freeScopes = t.freeScopes)
    (hlabels : t'.labels.size = t.labels.size) (hfreeLabels : t'.freeLabels = t.freeLabels)
    (hv : ∀ h, t.Valid h → t'.Valid h) : Retains t t' := by
  have hscope : ∀ scope, t'.scope scope = t.scope scope := fun scope => by
    rw [SymbolTable.scope, SymbolTable.scope, hscopes]
  exact ⟨by rw [hscopes], hfree, fun scope => by rw [hscope], fun scope => by rw [hscope],
    fun scope => by rw [hscope], Nat.le_of_eq hlabels.symm, fun hnone => hfreeLabels.trans hnone, Exists.imp hv⟩

theorem unbind (t : SymbolTable) (id : LabelId) : Retains t (t.unbind id) :=
  of_keeps (keeps_unbind t id) (source_unbind t id) (Exists.imp fun _ hv => hv.unbind id)

theorem unbindAll (ids : List LabelId) (t : SymbolTable) : Retains t (ids.foldl SymbolTable.unbind t) := by
  induction ids generalizing t with
  | nil => exact refl t
  | cons id ids ih => exact (unbind t id).trans (ih _)

theorem rebind (hid : id < t.labels.size ∧ id ∉ t.freeLabels) (hshown : t.rebind id = .ok t') : Retains t t' := by
  have hsource : ∀ scope, (t'.scope scope).source = (t.scope scope).source := by
    intro scope
    unfold SymbolTable.rebind at hshown
    simp only at hshown
    split at hshown
    · cases hshown
      rfl
    split at hshown
    · cases hshown
      exact source_bind t id scope
    · cases hshown
      exact source_bind t id scope
    · cases hshown
  exact of_keeps (keeps_rebind hshown) hsource (Exists.imp fun _ hv => hv.rebind ((hv.labels id).mpr hid) hshown)

theorem modifyLabel (hid : id ∉ t.freeLabels) {f : Label → Label}
    (hf : ∀ l, (f l).name = l.name ∧ (f l).reach = l.reach ∧ (f l).scope = l.scope ∧ (f l).token = l.token ∧
      (f l).bound = l.bound) : Retains t (t.modifyLabel id f) :=
  of_scopes rfl rfl Array.size_modify rfl fun _ hv => hv.modifyLabel hid hf

theorem setValue (hid : id ∉ t.freeLabels) (value : Option Value) : Retains t (t.setValue id value).2 := by
  unfold SymbolTable.setValue
  split
  · exact refl t
  · exact modifyLabel hid fun _ => ⟨rfl, rfl, rfl, rfl, rfl⟩

theorem addReference (t : SymbolTable) (source : SourceId) (name : String) :
    Retains t (t.addReference source name) := by
  refine of_scopes ?_ ?_ ?_ ?_ fun _ hv => hv.addReference source name
  all_goals
    unfold SymbolTable.addReference
    split <;> rfl

theorem defineMacro {m : MacroDefinition} (hmade : t.defineMacro m = .ok t') : Retains t t' := by
  have hvalid : ∀ h, t.Valid h → t'.Valid h := fun _ hv => hv.defineMacro hmade
  unfold SymbolTable.defineMacro at hmade
  split at hmade
  · cases hmade
  · cases hmade
    exact of_scopes rfl rfl rfl rfl hvalid

theorem addGroup (t : SymbolTable) (g : DataGroup) : Retains t (t.addGroup g) := by
  refine of_scopes ?_ ?_ ?_ ?_ fun _ hv => hv.addGroup g
  all_goals
    unfold SymbolTable.addGroup
    split <;> rfl

theorem addLabel {l : Label} (hhidden : l.bound = false) (hhome : t.InUse l.scope) : Retains t (t.addLabel l).2 := by
  have hscopes := scopes_addLabel t l
  have hscope : ∀ scope, (t.addLabel l).2.scope scope = t.scope scope := fun scope => by
    rw [SymbolTable.scope, SymbolTable.scope, hscopes]
  refine
    { size := by rw [hscopes]
      free := ?_
      kind := fun scope => by rw [hscope]
      parent := fun scope => by rw [hscope]
      source := fun scope => by rw [hscope]
      labels := ?_
      freeLabels := fun hnone => ?_
      valid := fun hvalid => ?_ }
  · unfold SymbolTable.addLabel
    cases t.freeLabels <;> rfl
  · rcases addLabel_eq t l with ⟨free, -, heq⟩ | ⟨-, -, heq⟩
    · rw [heq]
      exact Nat.le_of_eq Array.size_setIfInBounds.symm
    · rw [heq, Array.size_push]
      exact Nat.le_succ _
  · rw [addLabel_of_free hnone]
    exact hnone
  · obtain ⟨h, hv⟩ := hvalid
    exact ⟨_, (hv.addLabel hhidden (hv.inUse_iff.mp hhome)).1⟩

theorem createLabel {token : Token} {kind : LabelKind} {allow : Bool} (ht : t.Rooted)
    (hscope : t.InUse scope) (hmade : t.createLabel token scope kind allow = .ok (id, t')) :
    Retains t t' ∧ id < t'.labels.size ∧ id ∉ t'.freeLabels := by
  obtain ⟨h, hv⟩ := ht.valid
  have hvalid := hv.createLabel (hv.inUse_iff.mp hscope) hmade
  refine ⟨?_, (hvalid.labels id).mp (Set.mem_insert id h.labels)⟩
  obtain ⟨l, hhidden, hkeeper, hnew, rfl, rfl⟩ := createLabel_cases hmade
  have hhome : t.InUse l.scope := by
    rw [hkeeper]
    rcases keeper_eq t l.reach scope with heq | ⟨heq, -⟩
    · rw [heq]
      exact hscope
    · rw [heq]
      exact ht.inUse_root
  exact (addLabel hhidden hhome).trans (of_keeps (keeps_bind _ _) (source_bind _ _) fun _ => ⟨_, hvalid⟩)

end Retains

/-! ## Making scopes -/

theorem Rooted.addScope_spec (ht : t.Rooted) (kind : ScopeKind) (parent : ScopeId) (source : SourceId) :
    ¬ t.InUse (t.addScope kind parent source).1 ∧
      (t.addScope kind parent source).2.scope (t.addScope kind parent source).1 = { kind, parent := some parent, source } ∧
      (∀ scope ≠ (t.addScope kind parent source).1, (t.addScope kind parent source).2.scope scope = t.scope scope) ∧
      (∀ scope, (t.addScope kind parent source).2.InUse scope ↔
        scope = (t.addScope kind parent source).1 ∨ t.InUse scope) ∧
      (t.addScope kind parent source).2.labels = t.labels ∧
      (t.addScope kind parent source).2.freeLabels = t.freeLabels ∧
      (t.freeScopes = [] → (t.addScope kind parent source).2.freeScopes = []) := by
  obtain ⟨h, hv⟩ := ht.valid
  have hlive : ∀ scope, (t.addScope kind parent source).2.InUse scope ↔
      scope = (t.addScope kind parent source).1 ∨ t.InUse scope := by
    intro scope
    rw [(hv.addScope kind parent source).inUse_iff, hv.inUse_iff]
    exact Set.mem_insert_iff
  cases hfree : t.freeScopes with
  | cons id free =>
    obtain ⟨hlt, hvacant⟩ := hv.vacantScopes id (by rw [hfree]; exact List.mem_cons_self)
    rw [addScope_of_cons hfree] at hlive ⊢
    refine ⟨fun hused => hused.2 (by rw [hfree]; exact List.mem_cons_self), ?_, fun scope hne => ?_, hlive, rfl, rfl, nofun⟩
    · refine (scope_modifyScope t id id _).trans ?_
      rw [if_pos ⟨rfl, hlt⟩, hvacant]
      rfl
    · refine (scope_modifyScope t id scope _).trans ?_
      rw [if_neg fun hall => hne hall.1]
  | nil =>
    rw [addScope_of_free hfree] at hlive ⊢
    refine ⟨fun hused => Nat.lt_irrefl _ hused.1, ?_, fun scope hne => ?_, hlive, rfl, rfl, fun _ => hfree⟩
    · simp [SymbolTable.scope]
    · simp only [SymbolTable.scope, Array.getElem?_push, if_neg hne]

theorem Rooted.addScope (ht : t.Rooted) (kind : ScopeKind) {parent : ScopeId} (hused : t.InUse parent)
    {source : SourceId} (hsource : parent = globalScope ∨ (t.scope parent).source = source) :
    (t.addScope kind parent source).2.Rooted := by
  obtain ⟨hfresh, hnew, hold, hlive, -⟩ := ht.addScope_spec kind parent source
  have hvalid : ∃ h, (t.addScope kind parent source).2.Valid h := by
    obtain ⟨h, hv⟩ := ht.valid
    exact ⟨_, hv.addScope kind parent source⟩
  generalize t.addScope kind parent source = made at hfresh hnew hold hlive hvalid
  obtain ⟨id, t'⟩ := made
  simp only at hfresh hnew hold hlive hvalid ⊢
  have hother : ∀ scope, t.InUse scope → t'.scope scope = t.scope scope :=
    fun scope hscope => hold scope fun heq => hfresh (heq ▸ hscope)
  refine ⟨hvalid, ?_, fun scope hscope hroot => ?_, ?_⟩
  · rw [hother _ ht.inUse_root]
    exact ht.root
  · rcases (hlive scope).mp hscope with rfl | hin
    · rw [hnew]
      refine ⟨parent, rfl, (hlive parent).mpr (.inr hused), ?_⟩
      rw [hother parent hused]
      exact hsource
    · obtain ⟨outer, houter, houtside, howner⟩ := ht.inside scope hin hroot
      rw [hother scope hin]
      refine ⟨outer, houter, (hlive outer).mpr (.inr houtside), ?_⟩
      rw [hother outer houtside]
      exact howner
  · -- the new scope ranks above the one it lies in, and no scope in use lies in it yet
    obtain ⟨rank, hrank⟩ := ht.ranked
    refine ⟨fun scope => if scope = id then rank parent + 1 else rank scope, fun scope outer hscope houter => ?_⟩
    have hne : ∀ other, t.InUse other → other ≠ id := fun other hin heq => hfresh (heq ▸ hin)
    rcases (hlive scope).mp hscope with rfl | hin
    · rw [hnew] at houter
      cases houter
      simp only [if_true]
      rw [if_neg (hne parent hused)]
      exact Nat.lt_succ_self _
    rw [hother scope hin] at houter
    have houtside : t.InUse outer := by
      by_cases hroot : scope = globalScope
      · rw [hroot, ht.root] at houter
        cases houter
      · obtain ⟨parent', hparent', hin', -⟩ := ht.inside scope hin hroot
        rw [houter] at hparent'
        cases hparent'
        exact hin'
    simp only
    rw [if_neg (hne outer houtside), if_neg (hne scope hin)]
    exact hrank scope outer hin houter

/-! ## Releasing a source -/

theorem scope_releaseScopes (ids : List ScopeId) (t : SymbolTable) (hids : ∀ id ∈ ids, id < t.scopes.size)
    (hscope : scope ∉ ids) : (ids.foldl SymbolTable.releaseScope t).scope scope = t.scope scope := by
  induction ids generalizing t with
  | nil => rfl
  | cons id ids ih =>
    obtain ⟨hne, hrest⟩ := not_or.mp (mt List.mem_cons.mpr hscope)
    have hsize : (t.releaseScope id).scopes.size = t.scopes.size := Array.size_setIfInBounds
    rw [List.foldl_cons, ih _ (fun other hother => hsize ▸ hids other (List.mem_cons_of_mem _ hother)) hrest,
      scope_releaseScope (hids id List.mem_cons_self), if_neg hne]

theorem parent_releaseLabels (ids : List LabelId) (t : SymbolTable) (scope : ScopeId) :
    ((ids.foldl SymbolTable.releaseLabel t).scope scope).parent = (t.scope scope).parent := by
  induction ids generalizing t with
  | nil => rfl
  | cons id ids ih =>
    rw [List.foldl_cons, ih]
    exact (keeps_unbind t id).parent scope

theorem Valid.scope_releaseFile (hv : t.Valid h) (source : SourceId)
    (hscope : scope ∈ (t.afterRelease source h).scopes) :
    ((t.releaseFile source).scope scope).parent = (t.scope scope).parent ∧
      ((t.releaseFile source).scope scope).source = (t.scope scope).source := by
  obtain ⟨-, hstays⟩ := hscope
  unfold SymbolTable.releaseFile
  split
  · exact ⟨rfl, rfl⟩
  rename_i hroot
  rw [beq_iff_eq] at hroot
  obtain ⟨-, hparent, hsource⟩ := hv.frame_clearFile source scope
  generalize t.clearFile source = u at hparent hsource ⊢
  have hparent' := parent_releaseLabels (u.labelsOf source) u scope
  have hsource' := source_releaseLabels (u.labelsOf source) u scope
  change (((((u.labelsOf source).foldl SymbolTable.releaseLabel u).scopesOf source).foldl SymbolTable.releaseScope
    ((u.labelsOf source).foldl SymbolTable.releaseLabel u)).scope scope).parent = _ ∧
    (((((u.labelsOf source).foldl SymbolTable.releaseLabel u).scopesOf source).foldl SymbolTable.releaseScope
    ((u.labelsOf source).foldl SymbolTable.releaseLabel u)).scope scope).source = _
  generalize (u.labelsOf source).foldl SymbolTable.releaseLabel u = v at hparent' hsource' ⊢
  rw [scope_releaseScopes _ v fun id hid => (mem_scopesOf.mp hid).1]
  · exact ⟨hparent'.trans hparent, hsource'.trans hsource⟩
  · intro hmem
    obtain ⟨-, hne, hfrom⟩ := mem_scopesOf.mp hmem
    rw [hsource', hsource] at hfrom
    exact hstays.elim hroot fun hother => hother.elim hne fun hdifferent => hdifferent hfrom

/-- The scopes of a source are released together, and with a scope those inside of it. -/
theorem Rooted.releaseFile (ht : t.Rooted) (source : SourceId) : (t.releaseFile source).Rooted := by
  obtain ⟨h, hv⟩ := ht.valid
  have hafter := hv.releaseFile source
  have hkept := fun {scope} (hscope : scope ∈ (t.afterRelease source h).scopes) => hv.scope_releaseFile source hscope
  have hin : ∀ {scope}, scope ∈ (t.afterRelease source h).scopes → t.InUse scope :=
    fun hscope => hv.inUse_iff.mpr hscope.1
  refine ⟨⟨_, hafter⟩, (hkept hafter.root).1.trans ht.root, fun scope hscope hroot => ?_, ?_⟩
  · have hstays := hafter.inUse_iff.mp hscope
    obtain ⟨parent, hparent, hused, howner⟩ := ht.inside scope (hin hstays) hroot
    have hparentStays : parent ∈ (t.afterRelease source h).scopes := by
      refine ⟨hv.inUse_iff.mp hused, ?_⟩
      rcases howner with hglobal | hsame
      · exact .inr (.inl hglobal)
      · rw [hsame]
        exact hstays.2.imp_right fun hother => .inr (hother.resolve_left hroot)
    refine ⟨parent, (hkept hstays).1.trans hparent, hafter.inUse_iff.mpr hparentStays, ?_⟩
    rw [(hkept hstays).2, (hkept hparentStays).2]
    exact howner
  · obtain ⟨rank, hrank⟩ := ht.ranked
    refine ⟨rank, fun scope parent hscope hparent => ?_⟩
    have hstays := hafter.inUse_iff.mp hscope
    rw [(hkept hstays).1] at hparent
    exact hrank scope parent (hin hstays) hparent

/-! ## Searching along a way outwards -/

/-- The scopes from one outwards, up to one that lies in no other. -/
inductive Outwards (t : SymbolTable) : ScopeId → List ScopeId → Prop
  | last {scope : ScopeId} (outermost : (t.scope scope).parent = none) : Outwards t scope [scope]
  | step {scope parent : ScopeId} {rest : List ScopeId} (inside : (t.scope scope).parent = some parent)
      (onwards : Outwards t parent rest) : Outwards t scope (scope :: rest)

theorem Outwards.unique {chain chain' : List ScopeId} (hc : t.Outwards scope chain) (hc' : t.Outwards scope chain') :
    chain = chain' := by
  induction hc generalizing chain' with
  | last outermost =>
    cases hc' with
    | last => rfl
    | step inside => rw [outermost] at inside; cases inside
  | step inside _ ih =>
    cases hc' with
    | last outermost => rw [inside] at outermost; cases outermost
    | step inside' onwards' =>
      rw [inside] at inside'
      cases inside'
      rw [ih onwards']

/-- A search looks into one scope after the other, and has looked into all when it ends. -/
theorem Outwards.findWithin {chain : List ScopeId} (hc : t.Outwards scope chain) (name : String) {n : Nat}
    (hn : chain.length ≤ n) : t.findWithin name n scope = chain.findSome? fun outer => t.lookupIn? outer name := by
  induction hc generalizing n with
  | @last scope outermost =>
    obtain ⟨n, rfl⟩ := Nat.exists_eq_add_one_of_ne_zero (Nat.one_le_iff_ne_zero.mp hn)
    unfold SymbolTable.findWithin
    rw [List.findSome?_singleton, outermost]
    cases t.lookupIn? scope name <;> rfl
  | @step scope parent rest inside _ ih =>
    obtain ⟨n, rfl⟩ := Nat.exists_eq_add_one_of_ne_zero (Nat.ne_of_gt (Nat.lt_of_lt_of_le (Nat.succ_pos _) hn))
    unfold SymbolTable.findWithin
    rw [List.findSome?_cons, inside]
    cases t.lookupIn? scope name with
    | some id => rfl
    | none => exact ih (Nat.le_of_succ_le_succ hn)

/-- Every scope in use has a way outwards. Its scopes have lower and lower ranks. -/
theorem Rooted.exists_outwards (ht : t.Rooted) {rank : ScopeId → Nat}
    (hrank : ∀ scope parent, t.InUse scope → (t.scope scope).parent = some parent → rank parent < rank scope)
    (hused : t.InUse scope) : ∃ chain, t.Outwards scope chain ∧ (∀ outer ∈ chain, t.InUse outer) ∧
      chain.getLast? = some globalScope ∧ chain.Nodup ∧ ∀ outer ∈ chain, rank outer ≤ rank scope := by
  induction hlevel : rank scope using Nat.strong_induction_on generalizing scope with
  | _ level ih =>
    by_cases hroot : scope = globalScope
    · refine ⟨[scope], .last (hroot ▸ ht.root), ?_, by rw [hroot]; rfl, List.nodup_singleton _, ?_⟩
      · exact List.forall_mem_singleton.mpr hused
      · exact List.forall_mem_singleton.mpr (Nat.le_of_eq hlevel)
    obtain ⟨parent, hparent, hin, -⟩ := ht.inside scope hused hroot
    have hlower := hrank scope parent hused hparent
    obtain ⟨rest, hrest, hall, hlast, hnodup, hbelow⟩ := ih (rank parent) (hlevel ▸ hlower) hin rfl
    refine ⟨scope :: rest, .step hparent hrest, List.forall_mem_cons.mpr ⟨hused, hall⟩, ?_,
      List.nodup_cons.mpr ⟨fun hmem => ?_, hnodup⟩, List.forall_mem_cons.mpr ⟨Nat.le_of_eq hlevel, fun outer hmem => ?_⟩⟩
    · rw [List.getLast?_cons, hlast]
      rfl
    · exact Nat.lt_irrefl _ (Nat.lt_of_le_of_lt (hbelow scope hmem) hlower)
    · exact (Nat.le_trans (hbelow outer hmem) (Nat.le_of_lt hlower)).trans (Nat.le_of_eq hlevel)

/-- What scopes mean to a search. -/
structure Lexical (t : SymbolTable) : Prop where
  /-- From every scope in use the way leads through scopes in use to the global one and meets none twice. -/
  chain : ∀ scope, t.InUse scope → ∃ chain, t.Outwards scope chain ∧ chain.Nodup ∧ (∀ outer ∈ chain, t.InUse outer) ∧
    chain.getLast? = some globalScope
  /-- A search finds the label that the nearest scope on the way has under the name, if any has one. -/
  nearest : ∀ scope chain, t.InUse scope → t.Outwards scope chain → ∀ name id,
    t.findLabel? name scope = some id ↔ ∃ inner here outer, chain = inner ++ here :: outer ∧
      t.lookupIn? here name = some id ∧ ∀ other ∈ inner, t.lookupIn? other name = none
  /-- A label is found only from the scope that keeps it and from those inside of that. -/
  home : ∀ scope chain, t.InUse scope → t.Outwards scope chain → ∀ name id,
    t.findLabel? name scope = some id → (t.label id).scope ∈ chain

theorem Rooted.lexical (ht : t.Rooted) : t.Lexical := by
  obtain ⟨rank, hrank⟩ := ht.ranked
  have hnearest : ∀ scope chain, t.InUse scope → t.Outwards scope chain → ∀ name id,
      t.findLabel? name scope = some id ↔ ∃ inner here outer, chain = inner ++ here :: outer ∧
        t.lookupIn? here name = some id ∧ ∀ other ∈ inner, t.lookupIn? other name = none := by
    intro scope chain hused hchain name id
    obtain ⟨chain', hchain', hall, -, hnodup, -⟩ := ht.exists_outwards hrank hused
    obtain rfl := hchain.unique hchain'
    have hlength : chain.length ≤ t.scopes.size := by
      have hsubset : chain ⊆ List.range t.scopes.size := fun outer hmem => List.mem_range.mpr (hall outer hmem).1
      exact Nat.le_trans (hnodup.subperm hsubset).length_le (Nat.le_of_eq List.length_range)
    rw [findLabel?, hchain.findWithin name (Nat.le_succ_of_le hlength), List.findSome?_eq_some_iff]
  refine ⟨fun scope hused => ?_, hnearest, fun scope chain hused hchain name id hfound => ?_⟩
  · obtain ⟨chain, hchain, hall, hlast, hnodup, -⟩ := ht.exists_outwards hrank hused
    exact ⟨chain, hchain, hnodup, hall, hlast⟩
  · obtain ⟨inner, here, outer, rfl, hlookup, -⟩ := (hnearest scope chain hused hchain name id).mp hfound
    obtain ⟨h, hv⟩ := ht.valid
    obtain ⟨-, -, hhome, -⟩ := (hv.indexed.names here name id).mp hlookup
    rw [hhome]
    exact List.mem_append_right _ List.mem_cons_self

end CrossAssembler.SymbolTable
