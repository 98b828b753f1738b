import CrossAssembler.Proofs.Assembly.Declaration
import CrossAssembler.Proofs.Line.Allocation
import CrossAssembler.Proofs.Scopes.Upkeep

/-!
# Work that goes deeper

Included files, macro calls and repetitions get scopes and lines of their own and are worked on one level deeper.

Principal results: `Orderly.push`, `Orderly.addScope`, `Orderly.loadSource`.
-/

namespace CrossAssembler

namespace SymbolTable

variable {t t' : SymbolTable}

/-- Whether the scopes in use stay what they are. -/
structure Extends (t t' : SymbolTable) : Prop where
  inUse : ∀ scope, t.InUse scope → t'.InUse scope
  kind : ∀ scope, t.InUse scope → (t'.scope scope).kind = (t.scope scope).kind
  source : ∀ scope, t.InUse scope → (t'.scope scope).source = (t.scope scope).source
  labels : t.labels.size ≤ t'.labels.size

theorem Extends.trans {t'' : SymbolTable} (h : Extends t t') (h' : Extends t' t'') : Extends t t'' where
  inUse scope hscope := h'.inUse scope (h.inUse scope hscope)
  kind scope hscope := (h'.kind scope (h.inUse scope hscope)).trans (h.kind scope hscope)
  source scope hscope := (h'.source scope (h.inUse scope hscope)).trans (h.source scope hscope)
  labels := Nat.le_trans h.labels h'.labels

theorem Retains.extends (h : Retains t t') : Extends t t' :=
  ⟨fun scope => (h.inUse_iff scope).mpr, fun scope _ => h.kind scope, fun scope _ => h.source scope, h.labels⟩

theorem Rooted.extends_addScope (ht : t.Rooted) (kind : ScopeKind) (parent : ScopeId) (source : SourceId) :
    Extends t (t.addScope kind parent source).2 := by
  obtain ⟨hfresh, -, hold, hlive, hlabels, -⟩ := ht.addScope_spec kind parent source
  have hother : ∀ scope, t.InUse scope → (t.addScope kind parent source).2.scope scope = t.scope scope :=
    fun scope hscope => hold scope fun heq => hfresh (heq ▸ hscope)
  refine ⟨fun scope hscope => (hlive scope).mpr (.inr hscope), fun scope hscope => ?_, fun scope hscope => ?_, ?_⟩
  · rw [hother scope hscope]
  · rw [hother scope hscope]
  · rw [hlabels]

end SymbolTable

namespace Arena

variable {a : Arena}

theorem size_le_push (a : Arena) (l : Line) : a.size ≤ (a.push l).2.size := by
  unfold size
  rcases push_cases a l with ⟨new, free, -, heq⟩ | ⟨-, heq⟩
  · rw [heq, Array.size_setIfInBounds]
  · rw [heq, Array.size_push]
    exact Nat.le_succ _

theorem Idle.push (h : a.Idle) (l : Line) : (a.push l).2.Idle := by
  have hget := get_push a l
  rcases push_cases a l with ⟨new, free, hfree, heq⟩ | ⟨-, heq⟩
  · obtain ⟨hnodup, hglobal⟩ := h
    rw [hfree] at hnodup hglobal
    obtain ⟨hnew, hrest⟩ := List.nodup_cons.mp hnodup
    rw [heq] at hget ⊢
    refine ⟨hrest, fun id hid => ?_⟩
    rw [hget, if_neg]
    · exact hglobal id (List.mem_cons_of_mem new hid)
    · rintro ⟨rfl, -⟩
      exact hnew hid
  · rw [heq]
    exact ⟨List.nodup_nil, fun _ hid => absurd hid List.not_mem_nil⟩

end Arena

namespace Assembly

variable {known lasting : Prop} {s s' s'' : Assembly} {id : LineId} {scope : ScopeId} {ids : List LineId}

/-! ## Work of any kind -/

/-- Work that leaves the nesting as it found it, keeps scopes in order and the files as they are. Where nothing is
ever released, lines stay in their scopes. -/
structure Carries (known lasting : Prop) (s s' : Assembly) : Prop where
  depth : s'.depth = s.depth
  includeStack : s'.includeStack = s.includeStack
  units : s'.units.map (fun u => (u.path, u.items)) = s.units.map fun u => (u.path, u.items)
  size : s.lines.size ≤ s'.lines.size
  scope : known → lasting → ∀ id < s.lines.size, (s'.line id).scope = (s.line id).scope
  orderly : s'.Orderly known lasting
  symbols : known → s.symbols.Extends s'.symbols

theorem Carries.trans (h : Carries known lasting s s') (h' : Carries known lasting s' s'') :
    Carries known lasting s s'' where
  depth := h'.depth.trans h.depth
  includeStack := h'.includeStack.trans h.includeStack
  units := h'.units.trans h.units
  size := Nat.le_trans h.size h'.size
  scope hk hlasting id hid :=
    (h'.scope hk hlasting id (Nat.lt_of_lt_of_le hid h.size)).trans (h.scope hk hlasting id hid)
  orderly := h'.orderly
  symbols hk := (h.symbols hk).trans (h'.symbols hk)

theorem Tends.carries (h : Tends known lasting s s') : Carries known lasting s s' where
  depth := h.depth
  includeStack := h.includeStack
  units := by rw [h.units]
  size := Nat.le_of_eq h.size.symm
  scope _ _ id _ := h.scope id
  orderly := h.orderly
  symbols hk := (h.symbols hk).extends

theorem Orderly.attach (h : s.Orderly known lasting) (id : LineId) {f : Line → Line}
    (hscope : (f (s.line id)).scope = (s.line id).scope)
    (hlabels : (f (s.line id)).branchLabels ⊆ (s.line id).branchLabels) :
    Carries known lasting s (s.modifyLine id f) where
  depth := rfl
  includeStack := rfl
  units := rfl
  size := Nat.le_of_eq (size_modifyLine s id f).symm
  scope _ _ j _ := Orderly.scope_modifyLine id hscope j
  orderly := h.change id hscope fun hk hlasting label hlabel => (h hk).branches hlasting id label (hlabels hlabel)
  symbols _ := (SymbolTable.Retains.refl _).extends

theorem Carries.insideCall (h : Carries known lasting s.openCall s') : Carries known lasting s s'.closeCall where
  depth := by
    have hdepth : s'.depth = s.depth + 1 := h.depth
    change s'.depth - 1 = s.depth
    rw [hdepth, Nat.add_sub_cancel]
  includeStack := h.includeStack
  units := h.units
  size := h.size
  scope := h.scope
  orderly := h.orderly.congr rfl rfl rfl
  symbols := h.symbols

theorem Carries.insideFile {path : Path} (h : Carries known lasting (s.openFile path) s') :
    Carries known lasting s s'.closeFile where
  depth := h.depth
  includeStack := by
    have hstack : s'.includeStack = path :: s.includeStack := h.includeStack
    change s'.includeStack.tail = s.includeStack
    rw [hstack]
    rfl
  units := h.units
  size := h.size
  scope := h.scope
  orderly := h.orderly.congr rfl rfl rfl
  symbols := h.symbols

theorem Orderly.openCall (h : s.Orderly known lasting) : s.openCall.Orderly known lasting := h.congr rfl rfl rfl

theorem Orderly.openFile (h : s.Orderly known lasting) (path : Path) : (s.openFile path).Orderly known lasting :=
  h.congr rfl rfl rfl

/-! ## New lines -/

/-- New lines are taken into a scope. Nothing lies below them, and the nesting is the same. -/
structure Gains (known lasting : Prop) (s s' : Assembly) (ids : List LineId) (scope : ScopeId) : Prop where
  carries : Carries known lasting s s'
  nestings : s'.nestings = s.nestings
  nested : known → lasting → ∀ id, (s'.line id).nested ⊆ (s.line id).nested
  fresh : known → lasting → ∀ id ∈ ids, s.lines.size ≤ id ∧ id < s'.lines.size ∧ (s'.line id).scope = scope
  nodup : known → lasting → ids.Nodup

theorem Tends.gains (h : Tends known lasting s s') (scope : ScopeId) : Gains known lasting s s' [] scope :=
  ⟨h.carries, h.nestings, fun _ _ => h.nested, fun _ _ _ hid => absurd hid List.not_mem_nil, fun _ _ => List.nodup_nil⟩

theorem Gains.append {ids' : List LineId} (h : Gains known lasting s s' ids scope)
    (h' : Gains known lasting s' s'' ids' scope) : Gains known lasting s s'' (ids ++ ids') scope where
  carries := h.carries.trans h'.carries
  nestings := h'.nestings.trans h.nestings
  nested hk hlasting id := List.Subset.trans (h'.nested hk hlasting id) (h.nested hk hlasting id)
  fresh hk hlasting id hid := by
    rcases List.mem_append.mp hid with hid | hid
    · obtain ⟨hge, hlt, hscope⟩ := h.fresh hk hlasting id hid
      exact ⟨hge, Nat.lt_of_lt_of_le hlt h'.carries.size, (h'.carries.scope hk hlasting id hlt).trans hscope⟩
    · obtain ⟨hge, hlt, hscope⟩ := h'.fresh hk hlasting id hid
      exact ⟨Nat.le_trans h.carries.size hge, hlt, hscope⟩
  nodup hk hlasting := by
    refine List.nodup_append.mpr ⟨h.nodup hk hlasting, h'.nodup hk hlasting, fun id hid id' hid' heq => ?_⟩
    have hlt := (h.fresh hk hlasting id hid).2.1
    have hge := (h'.fresh hk hlasting id' hid').1
    exact Nat.not_le_of_lt hlt (heq ▸ hge)

theorem Gains.tends (h : Gains known lasting s s' ids scope) (h' : Tends known lasting s' s'') :
    Gains known lasting s s'' ids scope := by
  have happend := h.append (h'.gains scope)
  rw [List.append_nil] at happend
  exact happend

theorem Orderly.push (h : s.Orderly known lasting) {l : Line} (hscope : known → s.symbols.InUse l.scope)
    (hnested : l.nested = []) (hlabels : l.branchLabels = []) :
    Gains known lasting s { s with lines := (s.lines.push l).2 } [(s.lines.push l).1] l.scope := by
  have hget := Arena.get_push s.lines l
  have hnew : known → lasting → (s.lines.push l).1 = s.lines.size ∧ (s.lines.push l).2.size = s.lines.size + 1 ∧
      (s.lines.push l).2.free = [] := by
    intro hk hlasting
    rcases Arena.push_cases s.lines l with ⟨new, free, hfree, -⟩ | ⟨-, heq⟩
    · rw [((h hk).kept hlasting).1] at hfree
      cases hfree
    · rw [heq]
      exact ⟨rfl, Array.size_push _, rfl⟩
  refine
    { carries :=
        { depth := rfl
          includeStack := rfl
          units := rfl
          size := Arena.size_le_push s.lines l
          scope := fun hk hlasting id hid => ?_
          orderly := fun hk => ?_
          symbols := fun _ => (SymbolTable.Retains.refl _).extends }
      nestings := rfl
      nested := fun _ _ id => ?_
      fresh := fun hk hlasting => List.forall_mem_singleton.mpr ?_
      nodup := fun _ _ => List.nodup_singleton _ }
  · change ((s.lines.push l).2.get id).scope = _
    rw [hget, (hnew hk hlasting).1, if_neg fun hall => Nat.ne_of_lt hid hall.1]
    rfl
  · have hs := h hk
    refine ⟨hs.symbols, fun id => ?_, hs.idle.push l, fun hlasting => ?_, hs.recorders, fun hlasting id label hlabel => ?_⟩
    · change s.symbols.InUse ((s.lines.push l).2.get id).scope
      rw [hget]
      split
      · exact hscope hk
      · exact hs.lines id
    · exact ⟨(hnew hk hlasting).2.2, (hs.kept hlasting).2⟩
    · change label ∈ ((s.lines.push l).2.get id).branchLabels at hlabel
      rw [hget] at hlabel
      split at hlabel
      · rw [hlabels] at hlabel
        cases hlabel
      · exact hs.branches hlasting id label hlabel
  · change ((s.lines.push l).2.get id).nested ⊆ _
    rw [hget]
    split
    · rw [hnested]
      exact List.nil_subset _
    · exact List.Subset.refl _
  · obtain ⟨hid, hsize, -⟩ := hnew hk hlasting
    have hlt : (s.lines.push l).1 < (s.lines.push l).2.size := by
      rw [hid, hsize]
      exact Nat.lt_succ_self _
    refine ⟨Nat.le_of_eq hid.symm, hlt, ?_⟩
    change ((s.lines.push l).2.get (s.lines.push l).1).scope = _
    rw [hget, if_pos ⟨rfl, hlt⟩]

theorem Orderly.pushAll (h : s.Orderly known lasting) (ls : List Line) (hscope : known → s.symbols.InUse scope)
    (hls : ∀ l ∈ ls, l.scope = scope ∧ l.nested = [] ∧ l.branchLabels = []) :
    Gains known lasting s { s with lines := (s.lines.pushAll ls).2 } (s.lines.pushAll ls).1 scope := by
  induction ls generalizing s with
  | nil => exact h.refl.gains scope
  | cons l ls ih =>
    obtain ⟨⟨rfl, hnested, hlabels⟩, hrest⟩ := List.forall_mem_cons.mp hls
    have hpush := h.push hscope hnested hlabels
    have hlater := ih hpush.carries.orderly (fun hk => (hpush.carries.symbols hk).inUse _ (hscope hk)) hrest
    exact hpush.append hlater

theorem nested_of_isNew {l : Line} (h : l.IsNew) : l.nested = [] ∧ l.branchLabels = [] := by
  have hkind := h.kind
  unfold Line.nested Line.branchLabels
  generalize l.kind = kind at hkind ⊢
  cases kind with
  | command part =>
    have hstate : part.state = .none := hkind.2.1
    simp only [hstate]
    exact ⟨rfl, rfl⟩
  | call part =>
    have hexpansion : part.expansion = none := hkind.2
    simp [hexpansion]
  | _ => exact ⟨rfl, rfl⟩

theorem Orderly.copyLines (h : s.Orderly known lasting) (body : List LineId) (hscope : known → s.symbols.InUse scope) :
    Gains known lasting s { s with lines := (s.lines.instantiate body scope).2 } (s.lines.instantiate body scope).1
      scope := by
  induction body generalizing s with
  | nil => exact h.refl.gains scope
  | cons id body ih =>
    obtain ⟨hnested, hlabels⟩ := nested_of_isNew (Line.isNew_copyTo (s.lines.get id) scope)
    have hpush := h.push (l := (s.lines.get id).copyTo scope) hscope hnested hlabels
    have hlater := ih hpush.carries.orderly fun hk => (hpush.carries.symbols hk).inUse _ (hscope hk)
    exact hpush.append hlater

theorem Orderly.addScope (h : s.Orderly known lasting) (kind : ScopeKind) (parent : ScopeId) (source : SourceId)
    (hparent : known → s.symbols.InUse parent ∧ (parent = globalScope ∨ (s.symbols.scope parent).source = source))
    (scope : ScopeId) :
    Gains known lasting s { s with symbols := (s.symbols.addScope kind parent source).2 } [] scope ∧
      (known → (s.symbols.addScope kind parent source).2.InUse (s.symbols.addScope kind parent source).1 ∧
        ((s.symbols.addScope kind parent source).2.scope (s.symbols.addScope kind parent source).1).kind = kind) := by
  refine ⟨?_, fun hk => ?_⟩
  · refine
      { carries :=
          { depth := rfl
            includeStack := rfl
            units := rfl
            size := Nat.le_refl _
            scope := fun _ _ _ _ => rfl
            orderly := fun hk => ?_
            symbols := fun hk => (h hk).symbols.extends_addScope kind parent source }
        nestings := rfl
        nested := fun _ _ _ => List.Subset.refl _
        fresh := fun _ _ _ hid => absurd hid List.not_mem_nil
        nodup := fun _ _ => List.nodup_nil }
    have hs := h hk
    obtain ⟨-, -, -, hlive, hlabels, hfreeLabels, hfreeScopes⟩ := hs.symbols.addScope_spec kind parent source
    refine ⟨hs.symbols.addScope kind (hparent hk).1 (hparent hk).2, fun id => (hlive _).mpr (.inr (hs.lines id)), hs.idle,
      fun hlasting => ?_, ?_, ?_⟩
    · obtain ⟨hlines, hnone, hnone'⟩ := hs.kept hlasting
      exact ⟨hlines, hfreeLabels.trans hnone, hfreeScopes hnone'⟩
    · simp only [hlabels]
      exact hs.recorders
    · simp only [hlabels]
      exact hs.branches
  · obtain ⟨-, hnew, -, hlive, -⟩ := (h hk).symbols.addScope_spec kind parent source
    refine ⟨(hlive _).mpr (.inl rfl), ?_⟩
    rw [hnew]

/-! ## Sources -/

theorem Orderly.loadSource (h : s.Orderly known lasting) (name text : String) :
    Gains known lasting s (s.loadSource name text).2 (s.loadSource name text).1.2.2 (s.loadSource name text).1.2.1 := by
  unfold Assembly.loadSource
  simp only
  generalize s.sources.add name text = added
  obtain ⟨source, sources⟩ := added
  have hsources : Tends known lasting s { s with sources } := h.around rfl rfl rfl rfl rfl rfl rfl
  obtain ⟨hscope, hnew⟩ := hsources.orderly.addScope .file globalScope source
    (fun hk => ⟨(h hk).symbols.inUse_root, .inl rfl⟩) (s.symbols.addScope .file globalScope source).1
  have hlines := hscope.carries.orderly.pushAll ((classifySource s.instructions source ⟨name, text⟩).map fun l =>
      l.toLine (s.symbols.addScope .file globalScope source).1) (fun hk => (hnew hk).1) fun l hl => by
      obtain ⟨hisNew, hin⟩ := isNew_classifySource hl
      exact ⟨hin, nested_of_isNew hisNew⟩
  exact ((hsources.gains _).append hscope).append hlines

theorem map_addInclude (source : SourceId) (root : Path) (units : List SourceUnit) :
    (addInclude.go source root units).map (fun u => (u.path, u.items)) = units.map fun u => (u.path, u.items) := by
  induction units with
  | nil => rfl
  | cons u units ih =>
    unfold addInclude.go
    split
    · rfl
    · rw [List.map_cons, List.map_cons, ih]

theorem Orderly.addInclude (h : s.Orderly known lasting) (source : SourceId) (scope : ScopeId) :
    Gains known lasting s (s.addInclude source) [] scope := by
  unfold Assembly.addInclude
  split
  · exact h.refl.gains scope
  exact
    { carries :=
        { depth := rfl
          includeStack := rfl
          units := map_addInclude source _ s.units
          size := Nat.le_refl _
          scope := fun _ _ _ _ => rfl
          orderly := h.congr rfl rfl rfl
          symbols := fun _ => (SymbolTable.Retains.refl _).extends }
      nestings := rfl
      nested := fun _ _ _ => List.Subset.refl _
      fresh := fun _ _ _ hid => absurd hid List.not_mem_nil
      nodup := fun _ _ => List.nodup_nil }

end Assembly

end CrossAssembler
