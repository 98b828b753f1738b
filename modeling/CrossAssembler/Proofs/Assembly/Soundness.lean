import CrossAssembler.Proofs.Assembly.Steps
import CrossAssembler.Proofs.Symbol.Search

/-!
# What every step keeps

Principal results: `Changes.sound`, `Steps.sound` — every run keeps an assembly sound;
`Changes.failed`, `Steps.failed` — an error stays.
-/

namespace CrossAssembler

variable {item : Item}

/-! ## Items -/

theorem Item.Proper.mono {P Q : LineId → Prop} (h : ∀ id, P id → Q id) (hall : item.Proper P) : item.Proper Q := by
  induction hall with
  | line hid => exact .line (h _ hid)
  | conditional hid hheaders hnodup _ ih =>
    exact .conditional (h _ hid) (fun b hb => h _ (hheaders b hb)) hnodup ih

theorem Item.Proper.and {P Q : LineId → Prop} (h : item.Proper P) (h' : item.Proper Q) :
    item.Proper fun id => P id ∧ Q id := by
  induction h with
  | line hid =>
    cases h' with
    | line hid' => exact .line ⟨hid, hid'⟩
  | conditional hid hheaders hnodup _ ih =>
    cases h' with
    | conditional hid' hheaders' _ hbodies' =>
      exact .conditional ⟨hid, hid'⟩ (fun b hb => ⟨hheaders b hb, hheaders' b hb⟩) hnodup
        fun b hb item hitem => ih b hb item hitem (hbodies' b hb item hitem)

theorem Item.Proper.id {P : LineId → Prop} (h : item.Proper P) : P item.id := by
  cases h with
  | line hid => exact hid
  | conditional hid => exact hid

namespace Item

variable {k : LineId}

theorem allLines_eq (items : List Item) : allLines items = items.flatMap lines := by
  induction items with
  | nil => rfl
  | cons item items ih => rw [allLines, ih, List.flatMap_cons]

theorem mem_allLines {items : List Item} : k ∈ allLines items ↔ ∃ item ∈ items, k ∈ item.lines := by
  rw [allLines_eq, List.mem_flatMap]

theorem allLines_append (items items' : List Item) :
    allLines (items ++ items') = allLines items ++ allLines items' := by
  simp only [allLines_eq, List.flatMap_append]

theorem allLines_singleton (item : Item) : allLines [item] = item.lines := by
  rw [allLines, allLines, List.append_nil]

theorem allLines_map_line (ids : List LineId) : allLines (ids.map line) = ids := by
  induction ids with
  | nil => rfl
  | cons id ids ih => rw [List.map_cons, allLines, ih, lines, List.singleton_append]

theorem id_mem_lines (item : Item) : item.id ∈ item.lines := by
  cases item with
  | line id => exact List.mem_singleton_self id
  | conditional id branches =>
    rw [lines]
    exact List.mem_cons_self

theorem ids_sublist (items : List Item) : (items.map id).Sublist (allLines items) := by
  induction items with
  | nil => exact .slnil
  | cons item items ih =>
    rw [allLines, List.map_cons, ← List.singleton_append]
    refine List.Sublist.append (List.singleton_sublist.mpr item.id_mem_lines) ih

theorem mem_branchLines {id : LineId} {branches : List (LineId × List Item)} :
    k ∈ branchLines id branches ↔ ∃ b ∈ branches, k ∈ bodyLines id b := by
  induction branches with
  | nil =>
    rw [branchLines]
    simp
  | cons b branches ih =>
    rw [branchLines, List.mem_append, ih]
    simp

theorem mem_bodyLines {id : LineId} {b : LineId × List Item} :
    k ∈ bodyLines id b ↔ (b.1 ≠ id ∧ k = b.1) ∨ k ∈ allLines b.2 := by
  obtain ⟨header, body⟩ := b
  rw [bodyLines, List.mem_append]
  by_cases h : header = id <;> simp [h]

theorem Proper.mem_lines {P : LineId → Prop} {item : Item} (h : item.Proper P) : ∀ k ∈ item.lines, P k := by
  induction h with
  | line hid =>
    intro k hk
    rw [lines] at hk
    rw [List.mem_singleton.mp hk]
    exact hid
  | conditional hid hheaders _ _ ih =>
    intro k hk
    rw [lines] at hk
    rcases List.mem_cons.mp hk with rfl | hk
    · exact hid
    · obtain ⟨b, hb, hk⟩ := mem_branchLines.mp hk
      rcases mem_bodyLines.mp hk with ⟨-, rfl⟩ | hk
      · exact hheaders b hb
      · obtain ⟨item, hitem, hk⟩ := mem_allLines.mp hk
        exact ih b hb item hitem k hk

theorem Proper.of_lines {P Q : LineId → Prop} {item : Item} (h : item.Proper P)
    (hlines : ∀ k ∈ item.lines, Q k) : item.Proper Q := by
  induction h with
  | line => exact .line (hlines _ (by simp [lines]))
  | @conditional id branches _ _ hnodup _ ih =>
    have hbranch : ∀ b ∈ branches, ∀ k ∈ bodyLines id b, Q k := by
      intro b hb k hk
      refine hlines k ?_
      rw [lines]
      exact List.mem_cons_of_mem id (mem_branchLines.mpr ⟨b, hb, hk⟩)
    have hid : Q id := hlines id (by simp [lines])
    refine .conditional hid (fun b hb => ?_) hnodup fun b hb item hitem => ih b hb item hitem fun k hk => ?_
    · by_cases hheader : b.1 = id
      · exact hheader ▸ hid
      · exact hbranch b hb b.1 (mem_bodyLines.mpr (.inl ⟨hheader, rfl⟩))
    · exact hbranch b hb k (mem_bodyLines.mpr (.inr (mem_allLines.mpr ⟨item, hitem, hk⟩)))

end Item

/-! ## Lines -/

namespace Line

variable {l l' : Line}

theorem kind_mark (l : Line) (state : LineState) : (l.mark state).kind = l.kind := by
  unfold mark
  split <;> rfl

theorem place_mark (l : Line) (state : LineState) : (l.mark state).place = l.place := by
  unfold mark
  split <;> rfl

theorem scope_mark (l : Line) (state : LineState) : (l.mark state).scope = l.scope :=
  congrArg Prod.fst (place_mark l state)

theorem labelId_mark (l : Line) (state : LineState) : (l.mark state).labelId = l.labelId := by
  unfold mark
  split <;> rfl

theorem org_mark (l : Line) (state : LineState) : (l.mark state).org = l.org := by
  unfold mark
  split <;> rfl

theorem error_mark (h : l.state = .error) (state : LineState) : (l.mark state).state = .error := by
  unfold mark
  rw [h]
  cases state <;> exact h

theorem isSkipped_of_mark {target : LineState} (h : (l.mark target).isSkipped = true) :
    l.isSkipped = true ∨ target = .error ∨ target = .ignored := by
  cases hl : l.state <;> cases target <;> simp_all [mark, isSkipped]

theorem isPlain_congr (h : l'.kind = l.kind) : l'.isPlain = l.isPlain := by
  unfold isPlain
  rw [h]

theorem complete_congr (h : l'.kind = l.kind) : l'.Complete ↔ l.Complete := by
  unfold Complete
  rw [h]

theorem consistent_congr (h : l'.kind = l.kind) : l'.Consistent ↔ l.Consistent := by
  unfold Consistent
  rw [h]

theorem rows_congr (h : l'.kind = l.kind) : l'.rows = l.rows := by
  unfold rows
  rw [h]

theorem linesBelow_congr (h : l'.kind = l.kind) : Assembly.linesBelow l' = Assembly.linesBelow l := by
  unfold Assembly.linesBelow
  rw [h]

end Line

namespace Assembly

variable {s s' : Assembly}
variable {l : Line} {label : LabelId} {may : Permit}

theorem line_modifyLine (s : Assembly) (id j : LineId) (f : Line → Line) : (s.modifyLine id f).line j =
      if j = id ∧ j < s.lines.size then f (s.line j) else s.line j := by
  unfold line modifyLine Arena.get Arena.modify Arena.size
  simp only [Array.getElem?_modify]
  by_cases hj : j < s.lines.lines.size
  · by_cases hid : id = j
    · simp [hid, hj]
    · simp [hid, Ne.symm hid]
  · simp [hj]

theorem size_modifyLine (s : Assembly) (id : LineId) (f : Line → Line) :
    (s.modifyLine id f).lines.size = s.lines.size := by
  simp [modifyLine, Arena.modify, Arena.size]

theorem line_of_size_le {id : LineId} (h : s.lines.size ≤ id) : s.line id = Line.vacant := by
  unfold line Arena.get
  rw [Array.getElem?_eq_none h]
  rfl

theorem plain_iff : s.Plain ↔ ∀ id, (s.line id).isPlain = true := by
  constructor
  · intro h id
    by_cases hid : id < s.lines.size
    · have hline : s.line id = s.lines.lines[id] := by
        rw [line, Arena.get, Array.getElem?_eq_getElem hid]
        rfl
      rw [hline]
      exact h _ (Array.getElem_mem hid)
    · rw [line_of_size_le (Nat.le_of_not_lt hid)]
      rfl
  · intro h l hl
    obtain ⟨id, hid, rfl⟩ := Array.mem_iff_getElem.mp hl
    have hline := h id
    rw [line, Arena.get, Array.getElem?_eq_getElem hid] at hline
    exact hline

theorem not_plain {id : LineId} (h : (s.line id).isPlain = false) : ¬ s.Plain := by
  intro hplain
  rw [plain_iff.mp hplain id] at h
  cases h

theorem failed_report (d : Diagnostic) (h : s.Failed) : (s.report d).Failed := by
  unfold Failed report Diagnostics.hasErrors at *
  rw [Array.any_push, h]
  rfl

theorem failed_of_report {d : Diagnostic} (h : d.isError = true) : (s.report d).Failed := by
  unfold Failed report Diagnostics.hasErrors
  rw [Array.any_push, h, Bool.or_true]

/-! ## Where lines stand -/

theorem mem_lineIds {lists : List (List Item)} {k : LineId} :
    k ∈ lineIds lists ↔ ∃ items ∈ lists, ∃ item ∈ items, k ∈ item.lines := by
  simp only [lineIds, Item.mem_allLines, List.mem_flatten]
  grind

theorem held_none (s : Assembly) : s.held none = lineIds (s.units.map fun u => u.items) := rfl

theorem held_some (s : Assembly) (id : LineId) : s.held (some id) = lineIds (linesBelow (s.line id)) := rfl

/-- Whether lines stand in their lists like the nodes of trees: each in one at most, and only once, and
below lines of lower number. -/
structure Forest (s : Assembly) : Prop where
  ordered : ∀ id, ∀ k ∈ s.held (some id), id < k
  owned : ∀ {owner other k}, k ∈ s.held owner → k ∈ s.held other → owner = other
  distinct : ∀ owner, (s.held owner).Nodup
  rooted : ∀ k ∈ s.held none, k < s.lines.size

/-- The lists of one owner become others, whose lines it had or which stood nowhere. -/
theorem Forest.regrow (hf : s.Forest) (owner : Option LineId)
    (hother : ∀ other, other ≠ owner → s'.held other = s.held other) (hdistinct : (s'.held owner).Nodup)
    (hnew : ∀ k ∈ s'.held owner, k ∈ s.held owner ∨ s.Loose k)
    (hordered : ∀ id, owner = some id → ∀ k ∈ s'.held owner, id < k)
    (hrooted : ∀ k ∈ s'.held none, k < s'.lines.size) : s'.Forest where
  ordered id k hk := by
    by_cases heq : some id = owner
    · exact hordered id heq.symm k (heq ▸ hk)
    · rw [hother _ heq] at hk
      exact hf.ordered id k hk
  owned {first second k} hfirst hsecond := by
    -- a line of the owner that has come to it stood in no other list
    have hclash : ∀ {other}, other ≠ owner → k ∈ s'.held other → k ∉ s'.held owner := by
      intro other hne hk hkowner
      rw [hother other hne] at hk
      rcases hnew k hkowner with h | h
      · exact hne (hf.owned hk h)
      · exact h other hk
    by_cases hf1 : first = owner <;> by_cases hf2 : second = owner
    · rw [hf1, hf2]
    · exact absurd (hf1 ▸ hfirst) (hclash hf2 hsecond)
    · exact absurd (hf2 ▸ hsecond) (hclash hf1 hfirst)
    · rw [hother _ hf1] at hfirst
      rw [hother _ hf2] at hsecond
      exact hf.owned hfirst hsecond
  distinct other := by
    by_cases heq : other = owner
    · rw [heq]
      exact hdistinct
    · rw [hother _ heq]
      exact hf.distinct other
  rooted := hrooted

theorem Forest.same (hf : s.Forest) (hheld : ∀ owner, s'.held owner = s.held owner)
    (hsize : s.lines.size ≤ s'.lines.size) : s'.Forest where
  ordered id k hk := hf.ordered id k (hheld _ ▸ hk)
  owned hk hk' := hf.owned (hheld _ ▸ hk) (hheld _ ▸ hk')
  distinct owner := hheld owner ▸ hf.distinct owner
  rooted k hk := Nat.lt_of_lt_of_le (hf.rooted k (hheld none ▸ hk)) hsize

theorem Forest.sameLines (hf : s.Forest) (hlines : s'.lines = s.lines)
    (hunits : s'.units.map (fun u => u.items) = s.units.map fun u => u.items) : s'.Forest := by
  refine hf.same (fun owner => ?_) (Nat.le_of_eq (congrArg Arena.size hlines.symm))
  cases owner with
  | none => rw [held_none, held_none, hunits]
  | some id => rw [held_some, held_some, line, line, hlines]

theorem Forest.modifyLine (hf : s.Forest) (id : LineId) {f : Line → Line}
    (hgrows : linesBelow (f (s.line id)) = linesBelow (s.line id) ∨
      s.Grows id (linesBelow (f (s.line id)))) : (s.modifyLine id f).Forest := by
  have hother : ∀ other, other ≠ some id → (s.modifyLine id f).held other = s.held other := by
    rintro (_ | j) hne
    · rfl
    · rw [held_some, held_some, line_modifyLine, if_neg]
      exact fun h => hne (congrArg some h.1)
  rcases Nat.lt_or_ge id s.lines.size with hlt | hge
  · have hself : (s.modifyLine id f).held (some id) = lineIds (linesBelow (f (s.line id))) := by
      rw [held_some, line_modifyLine, if_pos ⟨rfl, hlt⟩]
    have hrooted : ∀ k ∈ (s.modifyLine id f).held none, k < (s.modifyLine id f).lines.size := by
      rw [size_modifyLine]
      exact hf.rooted
    rcases hgrows with hsame | hgrows
    · rw [hsame] at hself
      refine hf.same (fun owner => ?_) (Nat.le_of_eq (size_modifyLine s id f).symm)
      by_cases heq : owner = some id
      · rw [heq, hself]
        rfl
      · exact hother owner heq
    · refine hf.regrow (some id) hother (hself ▸ hgrows.1) (fun k hk => ?_) (fun j hj k hk => ?_) hrooted
      · rw [hself] at hk
        exact .inr (hgrows.2 k hk).2
      · cases hj
        rw [hself] at hk
        exact (hgrows.2 k hk).1
  · refine hf.same (fun owner => ?_) (Nat.le_of_eq (size_modifyLine s id f).symm)
    cases owner with
    | none => rfl
    | some j =>
      rw [held_some, held_some, line_modifyLine, if_neg]
      rintro ⟨rfl, hlt⟩
      exact absurd hlt (Nat.not_lt_of_le hge)

/-! ## Labels of rows -/

theorem Owns.congr {id : LineId} {l' : Line} (h : s.Owns id l) (hlabelId : l'.labelId = l.labelId)
    (hkind : l'.kind = l.kind) : s.Owns id l' := by
  unfold Owns
  rw [hlabelId, hkind]
  exact h

/-- Whether labels stay what they are, and rows get only labels that are made anew. -/
structure Later (s s' : Assembly) : Prop where
  labels : s.symbols.labels.size ≤ s'.symbols.labels.size
  kept : s.rowLabels ⊆ s'.rowLabels
  new : ∀ p ∈ s'.rowLabels, p ∈ s.rowLabels ∨ s.symbols.labels.size ≤ p.1
  identity : ∀ label < s.symbols.labels.size, (s'.symbols.label label).identity = (s.symbols.label label).identity

theorem Later.trans {s'' : Assembly} (h : Later s s') (h' : Later s' s'') : Later s s'' where
  labels := Nat.le_trans h.labels h'.labels
  kept := fun _ hp => h'.kept (h.kept hp)
  new p hp := (h'.new p hp).elim (h.new p) fun hge => .inr (Nat.le_trans h.labels hge)
  identity label hlt := (h'.identity label (Nat.lt_of_lt_of_le hlt h.labels)).trans (h.identity label hlt)

/-- A step that makes a label for a row, or none. -/
structure RowGrowth (s s' : Assembly) : Prop where
  labels : s.symbols.labels.size ≤ s'.symbols.labels.size
  identity : ∀ label < s.symbols.labels.size, (s'.symbols.label label).identity = (s.symbols.label label).identity
  rows : s'.rowLabels = s.rowLabels ∨ s.symbols.labels.size < s'.symbols.labels.size ∧
      (s'.symbols.label s.symbols.labels.size).kind = .defined ∧
      ∃ id, s'.rowLabels = (s.symbols.labels.size, id) :: s.rowLabels

theorem RowGrowth.of_eq (hlabels : s'.symbols.labels = s.symbols.labels) (hrows : s'.rowLabels = s.rowLabels) :
    RowGrowth s s' := by
  refine ⟨Nat.le_of_eq (congrArg Array.size hlabels.symm), fun label _ => ?_, .inl hrows⟩
  rw [SymbolTable.label, SymbolTable.label, hlabels]

theorem RowGrowth.of_keeps {symbols : SymbolTable} (h : s.symbols.Keeps symbols) : RowGrowth s { s with symbols } :=
  ⟨Nat.le_of_eq h.labels.symm, fun label _ => h.identity label, .inl rfl⟩

theorem RowGrowth.later (h : RowGrowth s s') : Later s s' := by
  rcases h.rows with hrows | ⟨-, -, id, hrows⟩
  · refine ⟨h.labels, ?_, fun p hp => .inl (hrows ▸ hp), h.identity⟩
    rw [hrows]
    exact fun _ hp => hp
  refine ⟨h.labels, ?_, fun p hp => ?_, h.identity⟩
  · rw [hrows]
    exact List.subset_cons_self _ _
  · rw [hrows] at hp
    rcases List.mem_cons.mp hp with rfl | hp
    · exact .inr (Nat.le_refl _)
    · exact .inl hp

theorem Free.later (h : s.Free label) (h' : Later s s') : s'.Free label := by
  refine ⟨Nat.lt_of_lt_of_le h.1 h'.labels, fun id hmem => ?_⟩
  rcases h'.new _ hmem with hold | hnew
  · exact h.2 id hold
  · exact Nat.not_lt_of_le hnew h.1

theorem Claims.later {id : LineId} {state : DirectiveState} (h : s.Claims id state) (h' : Later s s') :
    s'.Claims id state :=
  ⟨fun label hstate => (h.label label hstate).later h', fun rows hstate =>
    ⟨(h.rows rows hstate).1, fun r hr => h'.kept ((h.rows rows hstate).2 r hr)⟩⟩

theorem Owns.later {id : LineId} (h : s.Owns id l) (h' : Later s s') : s'.Owns id l := by
  refine ⟨fun label hlabel => (h.1 label hlabel).later h', ?_⟩
  have howned := h.2
  split
  · rename_i hkind
    rw [hkind] at howned
    exact fun label hlabel => (howned label hlabel).later h'
  · rename_i hkind
    rw [hkind] at howned
    exact fun e he label hlabel => (howned e he label hlabel).later h'
  · rename_i hkind
    rw [hkind] at howned
    exact howned.later h'
  · trivial

/-! ## Sound assemblies -/

/-- What holds of an assembly at every point of its work. -/
structure Sound (s : Assembly) : Prop where
  free : s.lines.free = []
  freeScopes : s.symbols.freeScopes = []
  freeLabels : s.symbols.freeLabels = []
  rooted : globalScope < s.symbols.scopes.size
  outwards : ∀ scope parent, (s.symbols.scope scope).parent = some parent → parent < scope
  placed : ∀ id < s.lines.size, (s.line id).scope < s.symbols.scopes.size
  owned : ∀ id, s.Owns id (s.line id)
  rowLabels : ∀ p ∈ s.rowLabels, p.1 < s.symbols.labels.size ∧ (s.symbols.label p.1).kind = .defined
  distinct : (s.rowLabels.map fun p => p.1).Nodup
  assigned : ∀ label, (s.symbols.label label).kind = .variable → ¬ s.Plain
  complete : ∀ id, (s.line id).Complete ∨ s.Failed
  consistent : ∀ id, (s.line id).Consistent
  rows : ∀ id, ∀ row ∈ (s.line id).rows, row < s.lines.size
  below : ∀ id, ∀ items ∈ linesBelow (s.line id), ∀ item ∈ items, item.Proper (· < s.lines.size)
  forest : s.Forest
  skipped : ∀ id < s.lines.size, (s.line id).isSkipped = true → s.Failed
  evaluated : ∀ e, .evaluated e ∈ s.journal → e.scope < s.symbols.scopes.size
  emitted : ∀ id cells, .emitted id cells ∈ s.journal → none ∈ cells → s.pass.isFinal = true → s.Failed

theorem Sound.held_lt (hs : s.Sound) {owner : Option LineId} {k : LineId} (hk : k ∈ s.held owner) :
    k < s.lines.size := by
  cases owner with
  | none => exact hs.forest.rooted k hk
  | some id =>
    obtain ⟨items, hitems, item, hitem, hk⟩ := mem_lineIds.mp hk
    exact (hs.below id items hitems item hitem).mem_lines k hk

/-- The label in front of a line is none of a row. -/
theorem Sound.named (hs : s.Sound) {id : LineId} (h : (s.line id).labelId = some label) :
    s.Free label := (hs.owned id).1 label h

theorem Sound.free_of_variable (hs : s.Sound) (h : (s.symbols.label label).kind = .variable) : s.Free label := by
  refine ⟨?_, fun id hmem => ?_⟩
  · by_contra hle
    rw [SymbolTable.label, Array.getElem?_eq_none (Nat.le_of_not_lt hle)] at h
    cases h
  · rw [(hs.rowLabels _ hmem).2] at h
    cases h

/-- What a line keeps in a step that leaves symbols alone. -/
structure LineStep (s s' : Assembly) (id : LineId) (l l' : Line) : Prop where
  scope : l'.scope = l.scope
  owned : s.Owns id l → s.Owns id l'
  plain : l'.isPlain = l.isPlain
  complete : l.Complete → l'.Complete ∨ s'.Failed
  consistent : l.Consistent → l'.Consistent
  rows : ∀ row ∈ l'.rows, row ∈ l.rows ∨ row < s.lines.size
  below : ∀ items ∈ linesBelow l', items ∈ linesBelow l ∨ ∀ item ∈ items, item.Proper fun id => id < s.lines.size
  skipped : l'.isSkipped = true → l.isSkipped = true ∨ s'.Failed

theorem LineStep.of_kind {id : LineId} {l' : Line} (hscope : l'.scope = l.scope) (hlabelId : l'.labelId = l.labelId)
    (hkind : l'.kind = l.kind) (hskipped : l'.isSkipped = true → l.isSkipped = true ∨ s'.Failed) :
    LineStep s s' id l l' where
  scope := hscope
  owned h := h.congr hlabelId hkind
  plain := Line.isPlain_congr hkind
  complete h := .inl ((Line.complete_congr hkind).mpr h)
  consistent h := (Line.consistent_congr hkind).mpr h
  rows _ hrow := .inl (Line.rows_congr hkind ▸ hrow)
  below _ hitems := .inl (Line.linesBelow_congr hkind ▸ hitems)
  skipped := hskipped

/-- A step that changes lines one by one and adds only events that are fit for it. -/
theorem Sound.lineStep (hs : s.Sound) (hsymbols : s'.symbols = s.symbols) (hrows : s'.rowLabels = s.rowLabels)
    (hfree : s'.lines.free = s.lines.free) (hsize : s'.lines.size = s.lines.size)
    (hpass : s'.pass = s.pass) (hforest : s'.Forest) (hfailed : s.Failed → s'.Failed)
    (hevaluated : ∀ e, .evaluated e ∈ s'.journal → .evaluated e ∈ s.journal ∨ e.scope < s.symbols.scopes.size)
    (hemitted : ∀ id cells, .emitted id cells ∈ s'.journal →
      .emitted id cells ∈ s.journal ∨ (none ∈ cells → s.pass.isFinal = true → s.Failed))
    (hlines : ∀ id, LineStep s s' id (s.line id) (s'.line id)) : s'.Sound := by
  have hplain : s'.Plain → s.Plain := by
    rw [plain_iff, plain_iff]
    exact fun h id => (hlines id).plain ▸ h id
  refine
    { free := hfree.trans hs.free
      freeScopes := hsymbols ▸ hs.freeScopes
      freeLabels := hsymbols ▸ hs.freeLabels
      rooted := hsymbols ▸ hs.rooted
      outwards := hsymbols ▸ hs.outwards
      placed := fun id hid => ?_
      owned := fun id => ((hlines id).owned (hs.owned id)).later (RowGrowth.of_eq (by rw [hsymbols]) hrows).later
      rowLabels := hsymbols ▸ hrows ▸ hs.rowLabels
      distinct := hrows ▸ hs.distinct
      assigned := fun label hkind h => ?_
      complete := fun id => ?_
      consistent := fun id => (hlines id).consistent (hs.consistent id)
      rows := fun id row hrow => hsize ▸ ((hlines id).rows row hrow).elim (hs.rows id row) fun h => h
      below := fun id items hitems item hitem => ?_
      forest := hforest
      skipped := fun id hid h => ?_
      evaluated := fun e he => ?_
      emitted := fun id cells hevent hnone hfinal => ?_ }
  · rw [hsymbols, (hlines id).scope]
    exact hs.placed id (hsize ▸ hid)
  · rw [hsymbols] at hkind
    exact hs.assigned label hkind (hplain h)
  · rcases hs.complete id with h | h
    · exact (hlines id).complete h
    · exact .inr (hfailed h)
  · rw [hsize]
    rcases (hlines id).below items hitems with h | h
    · exact hs.below id items h item hitem
    · exact h item hitem
  · rcases (hlines id).skipped h with h | h
    · exact hfailed (hs.skipped id (hsize ▸ hid) h)
    · exact h
  · rw [hsymbols]
    rcases hevaluated e he with h | h
    · exact hs.evaluated e h
    · exact h
  · rw [hpass] at hfinal
    rcases hemitted id cells hevent with h | h
    · exact hfailed (hs.emitted id cells h hnone hfinal)
    · exact hfailed (h hnone hfinal)

theorem Sound.regrow (hs : s.Sound) (hlines : s'.lines = s.lines) (hsymbols : s'.symbols = s.symbols)
    (hdiagnostics : s'.diagnostics = s.diagnostics) (hpass : s'.pass = s.pass)
    (hjournal : s'.journal = s.journal) (hrows : s'.rowLabels = s.rowLabels) (hdistinct : (s'.held none).Nodup)
    (hnew : ∀ k ∈ s'.held none, k ∈ s.held none ∨ k < s.lines.size ∧ s.Loose k) : s'.Sound := by
  have hline : ∀ id, s'.line id = s.line id := by
    intro id
    unfold line
    rw [hlines]
  have hother : ∀ other, other ≠ none → s'.held other = s.held other := by
    rintro (_ | id) hne
    · exact absurd rfl hne
    · rw [held_some, held_some, hline]
  have hforest : s'.Forest := by
    refine hs.forest.regrow none hother hdistinct (fun k hk => (hnew k hk).imp_right And.right) nofun ?_
    intro k hk
    rw [hlines]
    exact (hnew k hk).elim (hs.forest.rooted k) And.left
  refine hs.lineStep hsymbols hrows (by rw [hlines]) (by rw [hlines]) hpass hforest (fun h => ?_)
    (fun e he => .inl (hjournal ▸ he)) (fun id cells he => .inl (hjournal ▸ he)) fun id => ?_
  · unfold Failed
    rw [hdiagnostics]
    exact h
  · rw [hline]
    exact .of_kind rfl rfl rfl .inl

theorem Sound.symbolStep (hs : s.Sound) (hlines : s'.lines = s.lines)
    (hunits : s'.units.map (fun u => u.items) = s.units.map fun u => u.items)
    (hdiagnostics : s'.diagnostics = s.diagnostics) (hpass : s'.pass = s.pass)
    (hjournal : s'.journal = s.journal) (hfreeScopes : s'.symbols.freeScopes = [])
    (hfreeLabels : s'.symbols.freeLabels = [])
    (houtwards : ∀ scope parent, (s'.symbols.scope scope).parent = some parent → parent < scope)
    (hsize : s.symbols.scopes.size ≤ s'.symbols.scopes.size) (hgrowth : RowGrowth s s')
    (hkind : ∀ label, (s'.symbols.label label).kind = .variable →
      (s.symbols.label label).kind = .variable ∨ ¬ s.Plain) : s'.Sound := by
  have hline : ∀ id, s'.line id = s.line id := by
    intro id
    unfold line
    rw [hlines]
  have hplain : s'.Plain ↔ s.Plain := by
    unfold Plain
    rw [hlines]
  have hfailed : s'.Failed ↔ s.Failed := by
    unfold Failed
    rw [hdiagnostics]
  refine
    { free := hlines ▸ hs.free
      freeScopes := hfreeScopes
      freeLabels := hfreeLabels
      rooted := Nat.lt_of_lt_of_le hs.rooted hsize
      outwards := houtwards
      placed := fun id hid => ?_
      owned := fun id => ?_
      rowLabels := ?_
      distinct := ?_
      assigned := fun label h => ?_
      complete := fun id => ?_
      consistent := fun id => ?_
      rows := fun id => ?_
      below := fun id => ?_
      forest := hs.forest.sameLines hlines hunits
      skipped := fun id => ?_
      evaluated := fun e he => ?_
      emitted := fun id cells => ?_ }
  · rw [hline]
    exact Nat.lt_of_lt_of_le (hs.placed id (hlines ▸ hid)) hsize
  · rw [hline]
    exact (hs.owned id).later hgrowth.later
  · have hold : ∀ p ∈ s.rowLabels, p.1 < s'.symbols.labels.size ∧ (s'.symbols.label p.1).kind = .defined := by
      intro p hp
      obtain ⟨hlt, hdefined⟩ := hs.rowLabels p hp
      exact ⟨Nat.lt_of_lt_of_le hlt hgrowth.labels, (congrArg Prod.fst (hgrowth.identity p.1 hlt)).trans hdefined⟩
    rcases hgrowth.rows with hrows | ⟨hlt, hdefined, id, hrows⟩ <;> rw [hrows]
    · exact hold
    · exact List.forall_mem_cons.mpr ⟨⟨hlt, hdefined⟩, hold⟩
  · rcases hgrowth.rows with hrows | ⟨-, -, id, hrows⟩ <;> rw [hrows]
    · exact hs.distinct
    · refine List.nodup_cons.mpr ⟨fun hmem => ?_, hs.distinct⟩
      obtain ⟨p, hp, hlabel⟩ := List.mem_map.mp hmem
      exact Nat.lt_irrefl _ (hlabel ▸ (hs.rowLabels p hp).1)
  · rw [hplain]
    rcases hkind label h with h | h
    · exact hs.assigned label h
    · exact h
  · rw [hline, hfailed]
    exact hs.complete id
  · rw [hline]
    exact hs.consistent id
  · rw [hline, hlines]
    exact hs.rows id
  · rw [hline, hlines]
    exact hs.below id
  · rw [hline, hlines, hfailed]
    exact hs.skipped id
  · rw [hjournal] at he
    exact Nat.lt_of_lt_of_le (hs.evaluated e he) hsize
  · rw [hjournal, hpass, hfailed]
    exact hs.emitted id cells

theorem Sound.around (hs : s.Sound) (hlines : s'.lines = s.lines)
    (hunits : s'.units.map (fun u => u.items) = s.units.map fun u => u.items) (hsymbols : s'.symbols = s.symbols)
    (hdiagnostics : s'.diagnostics = s.diagnostics) (hpass : s'.pass = s.pass)
    (hjournal : s'.journal = s.journal) (hrows : s'.rowLabels = s.rowLabels) : s'.Sound := by
  refine hs.symbolStep hlines hunits hdiagnostics hpass hjournal ?_ ?_ ?_ ?_ (.of_eq ?_ hrows) ?_
  · rw [hsymbols]
    exact hs.freeScopes
  · rw [hsymbols]
    exact hs.freeLabels
  · rw [hsymbols]
    exact hs.outwards
  · rw [hsymbols]
  · rw [hsymbols]
  · rw [hsymbols]
    exact fun _ hk => .inl hk

theorem Sound.keeps {symbols : SymbolTable} (hs : s.Sound) (h : s.symbols.Keeps symbols) :
    { s with symbols }.Sound := by
  refine hs.symbolStep rfl rfl rfl rfl rfl (h.freeScopes.trans hs.freeScopes)
    (h.freeLabels.trans hs.freeLabels) (fun scope parent hp => ?_) (Nat.le_of_eq h.scopes.symm)
    (.of_keeps h) fun label hk => ?_
  · exact hs.outwards scope parent ((h.parent scope).symm.trans hp)
  · exact .inl ((h.kind label).symm.trans hk)

/-! ## New lines -/

theorem push_of_free (hfree : s.lines.free = []) : s.lines.push l = (s.lines.size, ⟨s.lines.lines.push l, []⟩) := by
  unfold Arena.push Arena.size
  rw [hfree]

theorem line_push (hfree : s.lines.free = []) (id : LineId) : { s with lines := (s.lines.push l).2 }.line id =
      if id = s.lines.size then l else s.line id := by
  rw [push_of_free hfree]
  unfold line Arena.get Arena.size
  simp only [Array.getElem?_push]
  split <;> rfl

theorem size_push (hfree : s.lines.free = []) : (s.lines.push l).2.size = s.lines.size + 1 := by
  rw [push_of_free hfree]
  exact Array.size_push l

theorem plain_of_push (hfree : s.lines.free = []) (h : { s with lines := (s.lines.push l).2 }.Plain) : s.Plain := by
  rw [plain_iff] at h ⊢
  intro id
  have hid := h id
  rw [line_push hfree] at hid
  split at hid
  · rename_i heq
    rw [line_of_size_le (Nat.le_of_eq heq.symm)]
    rfl
  · exact hid

theorem Sound.push (hs : s.Sound) (hl : s.Fresh l) : { s with lines := (s.lines.push l).2 }.Sound := by
  have hline := line_push (s := s) (l := l) hs.free
  have hsize := size_push (s := s) (l := l) hs.free
  have hgrow : ∀ {item : Item}, item.Proper (· < s.lines.size) → item.Proper (· < s.lines.size + 1) :=
    fun h => h.mono fun _ hid => Nat.lt_succ_of_lt hid
  refine
    { free := by rw [push_of_free hs.free]
      freeScopes := hs.freeScopes
      freeLabels := hs.freeLabels
      rooted := hs.rooted
      outwards := hs.outwards
      placed := fun id hid => ?_
      owned := fun id => ?_
      rowLabels := hs.rowLabels
      distinct := hs.distinct
      assigned := fun label h hplain => hs.assigned label h (plain_of_push hs.free hplain)
      complete := fun id => ?_
      consistent := fun id => ?_
      rows := fun id row hrow => ?_
      below := fun id items hitems item hitem => ?_
      forest := ?_
      skipped := fun id hid h => ?_
      evaluated := hs.evaluated
      emitted := hs.emitted }
  · rw [hline]
    split
    · exact hl.scope
    · rename_i hne
      have hid' : id < s.lines.size + 1 := hsize ▸ hid
      exact hs.placed id (Nat.lt_of_le_of_ne (Nat.le_of_lt_succ hid') hne)
  · rw [hline]
    split
    · exact (hl.owned id).later (RowGrowth.later (.of_eq rfl rfl))
    · exact (hs.owned id).later (RowGrowth.later (.of_eq rfl rfl))
  · rw [hline]
    split
    · exact .inl hl.complete
    · exact hs.complete id
  · rw [hline]
    split
    · exact hl.consistent
    · exact hs.consistent id
  · rw [hline] at hrow
    rw [hsize]
    split at hrow
    · rw [hl.rows] at hrow
      cases hrow
    · exact Nat.lt_succ_of_lt (hs.rows id row hrow)
  · rw [hline] at hitems
    rw [hsize]
    split at hitems
    · rw [hl.below] at hitems
      cases hitems
    · exact hgrow (hs.below id items hitems item hitem)
  · refine hs.forest.same (fun owner => ?_) (hsize ▸ Nat.le_succ _)
    cases owner with
    | none => rfl
    | some id =>
      rw [held_some, held_some, hline]
      split
      · rename_i heq
        rw [hl.below, line_of_size_le (Nat.le_of_eq heq.symm)]
        rfl
      · rfl
  · rw [hline] at h
    split at h
    · rw [Line.isSkipped, hl.state] at h
      cases h
    · rename_i hne
      have hid' : id < s.lines.size + 1 := hsize ▸ hid
      exact hs.skipped id (Nat.lt_of_le_of_ne (Nat.le_of_lt_succ hid') hne) h

/-! ## Changes -/

theorem failed_of_diagnostics (h : s'.diagnostics = s.diagnostics) : s'.Failed ↔ s.Failed := by
  unfold Failed
  rw [h]

theorem Faulty.failed (h : s.Faulty) (hs : s.Sound) : s.Failed := by
  rcases h with h | ⟨id, hid, h⟩
  · exact h
  · exact hs.skipped id hid h

theorem Sound.modifyLine (hs : s.Sound) (id : LineId) {f : Line → Line}
    (hgrows : linesBelow (f (s.line id)) = linesBelow (s.line id) ∨ s.Grows id (linesBelow (f (s.line id))))
    (h : LineStep s (s.modifyLine id f) id (s.line id) (f (s.line id))) : (s.modifyLine id f).Sound := by
  refine hs.lineStep rfl rfl rfl (size_modifyLine s id f) rfl (hs.forest.modifyLine id hgrows) (fun h => h)
    (fun _ he => .inl he)
    (fun _ _ he => .inl he) fun j => ?_
  rw [line_modifyLine]
  split
  · rename_i hj
    rw [hj.1]
    exact h
  · exact .of_kind rfl rfl rfl .inl

theorem setLabelValue_eq (s : Assembly) (label : LabelId) (value : Option Value) :
    ∃ progress, s.setLabelValue label value = { s with symbols := (s.symbols.setValue label value).2, progress } := by
  unfold setLabelValue
  simp only
  split
  · split
    · exact ⟨_, rfl⟩
    · exact ⟨_, rfl⟩
  · exact ⟨_, rfl⟩

theorem keeps_setDoc (s : Assembly) (label : LabelId) (doc : Option String) :
    s.symbols.Keeps (s.setDoc label doc).symbols := .modifyLabel _ _ (fun _ => rfl) fun _ => rfl

theorem setValue_spec (t : SymbolTable) (label : LabelId) (value : Option Value) :
    let t' := (t.setValue label value).2
    t'.labels.size = t.labels.size ∧ (∀ other, (t'.label other).identity = (t.label other).identity) ∧
      t'.groups = t.groups := by
  unfold SymbolTable.setValue
  split
  · exact ⟨rfl, fun _ => rfl, rfl⟩
  · refine ⟨Array.size_modify, fun other => ?_, rfl⟩
    simp only [SymbolTable.label_modifyLabel]
    split <;> rfl

theorem Sound.setValue (hs : s.Sound) (label : LabelId) (value : Option Value) :
    { s with symbols := (s.symbols.setValue label value).2 }.Sound := by
  obtain ⟨hsize, hidentity, -⟩ := setValue_spec s.symbols label value
  have hscopes : (s.symbols.setValue label value).2 = { (s.symbols.setValue label value).2 with
        scopes := s.symbols.scopes, freeScopes := s.symbols.freeScopes, freeLabels := s.symbols.freeLabels } := by
    unfold SymbolTable.setValue
    split <;> rfl
  rw [hscopes] at hsize hidentity ⊢
  exact hs.symbolStep rfl rfl rfl rfl rfl hs.freeScopes hs.freeLabels hs.outwards (Nat.le_refl _)
    ⟨Nat.le_of_eq hsize.symm, fun other _ => hidentity other, .inl rfl⟩
    fun other h => .inl ((congrArg Prod.fst (hidentity other)).symm.trans h)

theorem Sound.setLabelValue (hs : s.Sound) (label : LabelId) (value : Option Value) :
    (s.setLabelValue label value).Sound := by
  obtain ⟨progress, heq⟩ := setLabelValue_eq s label value
  rw [heq]
  exact (hs.setValue label value).around rfl rfl rfl rfl rfl rfl rfl

theorem failed_setLabelValue (hs : s.Failed) (label : LabelId) (value : Option Value) :
    (s.setLabelValue label value).Failed := by
  obtain ⟨progress, heq⟩ := setLabelValue_eq s label value
  rw [heq]
  exact hs

theorem Change.failed (h : Change may s s') (hs : s.Failed) : s'.Failed := by
  cases h with
  | around _ _ hdiagnostics => exact (failed_of_diagnostics hdiagnostics).mpr hs
  | report d => exact failed_report d hs
  | assign label value => exact failed_setLabelValue hs label value
  | mark | modify | name | define | document | register | addScope | push => exact hs

theorem rowGrowth_define {token : Token} {scope : ScopeId} {kind : LabelKind} {allow : Bool}
    {symbols : SymbolTable} (id : LineId) (hfree : s.symbols.freeLabels = [])
    (h : s.symbols.createLabel token scope kind allow = .ok (label, symbols)) :
    RowGrowth s { s with
        symbols
        recorders := s.recorders.map fun labels => label :: labels
        rowLabels :=
          if kind = .defined ∧ (s.line id).hasRows = true then (label, id) :: s.rowLabels
          else s.rowLabels } := by
  obtain ⟨hlabel, hsize⟩ := SymbolTable.labels_createLabel hfree h
  obtain ⟨hidentity, hnew, -⟩ := SymbolTable.identity_createLabel hfree h
  refine ⟨hsize ▸ Nat.le_succ _, hidentity, ?_⟩
  simp only
  split
  · rename_i hrow
    exact .inr ⟨hsize ▸ Nat.lt_succ_self _, (congrArg Prod.fst hnew).trans hrow.1, id, by rw [hlabel]⟩
  · exact .inl rfl

theorem Change.sound (h : Change may s s') (hs : s.Sound) : s'.Sound := by
  cases h with
  | around hlines hsymbols hdiagnostics hpass _ hjournal hunits _ _ hrows =>
    exact hs.around hlines hunits hsymbols hdiagnostics hpass hjournal hrows
  | report d =>
    exact hs.lineStep rfl rfl rfl rfl rfl (hs.forest.sameLines rfl rfl) (failed_report d) (fun _ he => .inl he)
      (fun _ _ he => .inl he) fun _ => .of_kind rfl rfl rfl .inl
  | mark id state hfaulty =>
    refine hs.modifyLine id (.inl (Line.linesBelow_congr (Line.kind_mark _ _)))
      (.of_kind (Line.scope_mark _ _) (Line.labelId_mark _ _) (Line.kind_mark _ _) fun h => ?_)
    rcases Line.isSkipped_of_mark h with h | h
    · exact .inl h
    · exact .inr ((hfaulty h).failed hs)
  | modify id f hown href hgrows =>
    refine hs.modifyLine id hgrows
      ⟨href.scope, href.owned, href.plain, href.complete, href.consistent, href.rows, fun items hitems => ?_,
        fun h => ?_⟩
    · exact (href.below items hitems).imp_right fun h item hitem =>
        (h item hitem).mono fun _ hid => hid.2
    · left
      rw [Line.isSkipped, href.state] at h
      exact h
  | name id label _ hnone hfree =>
    refine hs.modifyLine id (.inl rfl) ⟨rfl, fun h => ⟨fun other hother => ?_, h.2⟩, rfl, .inl, fun h => h,
      fun _ => .inl, fun _ hitems => .inl hitems, .inl⟩
    cases hother
    exact hfree
  | define id hcreate _ hplain =>
    obtain ⟨hsize, hfreeScopes, hfreeLabels, hparent⟩ :=
      SymbolTable.scopes_createLabel hs.freeLabels hcreate
    have hlabels := SymbolTable.labels_createLabel hs.freeLabels hcreate
    refine hs.symbolStep rfl rfl rfl rfl rfl (hfreeScopes.trans hs.freeScopes) hfreeLabels
      (fun scope parent hp => hs.outwards scope parent ((hparent scope).symm.trans hp))
      (Nat.le_of_eq hsize.symm) (rowGrowth_define id hs.freeLabels hcreate) fun label hk => ?_
    rcases SymbolTable.kind_createLabel hs.freeLabels hcreate label with h | h
    · exact .inl (h.symm.trans hk)
    · exact .inr (hplain (h.symm.trans hk))
  | assign label value _ => exact hs.setLabelValue label value
  | document label doc => exact hs.keeps (keeps_setDoc s label doc)
  | register symbols hlabels hscopes hfreeLabels hfreeScopes =>
    refine hs.symbolStep rfl rfl rfl rfl rfl (hfreeScopes.trans hs.freeScopes)
      (hfreeLabels.trans hs.freeLabels) (fun scope parent hp => ?_) ?_ ?_ fun label hk => ?_
    · rw [SymbolTable.scope, hscopes] at hp
      exact hs.outwards scope parent hp
    · exact Nat.le_of_eq (congrArg Array.size hscopes.symm)
    · exact .of_eq hlabels rfl
    · rw [SymbolTable.label, hlabels] at hk
      exact .inl hk
  | addScope kind parent source hparent =>
    rw [SymbolTable.addScope_of_free hs.freeScopes]
    refine hs.symbolStep rfl rfl rfl rfl rfl hs.freeScopes hs.freeLabels (fun scope outer hp => ?_) ?_
      (.of_eq rfl rfl) fun _ hk => .inl hk
    · rcases Nat.lt_trichotomy scope s.symbols.scopes.size with hlt | rfl | hgt
      · rw [SymbolTable.scope_push_of_lt hlt] at hp
        exact hs.outwards scope outer hp
      · simp only [SymbolTable.scope, Array.getElem?_push_size, Option.getD_some, Option.some.injEq] at hp
        exact hp ▸ hparent
      · rw [SymbolTable.scope, Array.getElem?_eq_none (by rw [Array.size_push]; exact hgt)] at hp
        cases hp
    · rw [Array.size_push]
      exact Nat.le_succ _
  | push l hl => exact hs.push hl

theorem later_setLabelValue (s : Assembly) (label : LabelId) (value : Option Value) :
    Later s (s.setLabelValue label value) := by
  obtain ⟨progress, heq⟩ := setLabelValue_eq s label value
  rw [heq]
  obtain ⟨hsize, hidentity, -⟩ := setValue_spec s.symbols label value
  exact ⟨Nat.le_of_eq hsize.symm, fun _ hp => hp, fun _ => .inl, fun other _ => hidentity other⟩

theorem Change.later (h : Change may s s') (hs : s.Sound) : Later s s' := by
  cases h with
  | around _ hsymbols _ _ _ _ _ _ _ hrows => exact (RowGrowth.of_eq (by rw [hsymbols]) hrows).later
  | report | mark | modify | name | push => exact RowGrowth.later (.of_eq rfl rfl)
  | addScope =>
    rw [SymbolTable.addScope_of_free hs.freeScopes]
    exact RowGrowth.later (.of_eq rfl rfl)
  | define id hcreate => exact (rowGrowth_define id hs.freeLabels hcreate).later
  | assign label value => exact later_setLabelValue s label value
  | document label doc => exact (RowGrowth.of_keeps (keeps_setDoc s label doc)).later
  | register symbols hlabels => exact RowGrowth.later (.of_eq hlabels rfl)

/-! ## Steps of a pass -/

theorem failed_fail (s : Assembly) (id : LineId) (span : Span) (message : String) : (s.fail id span message).Failed :=
  failed_of_report (s := s) rfl

theorem changes_fail (s : Assembly) (id : LineId) (span : Span)
    (message : String) : Changes may s (s.fail id span message) := by
  have hreport : Change may s (s.report { severity := .error, message, primary := span }) :=
    .report _
  exact (Relation.ReflTransGen.single hreport).tail (.mark id .error fun _ => .inl (failed_fail s id span message))

theorem Changes.failed (h : Changes may s s') (hs : s.Failed) : s'.Failed := by
  induction h with
  | refl => exact hs
  | tail _ hstep ih => exact hstep.failed ih

theorem Changes.sound (h : Changes may s s') (hs : s.Sound) : s'.Sound := by
  induction h with
  | refl => exact hs
  | tail _ hstep ih => exact hstep.sound ih

theorem Later.refl (s : Assembly) : Later s s := ⟨Nat.le_refl _, fun _ hp => hp, fun _ => .inl, fun _ _ => rfl⟩

theorem Changes.later (h : Changes may s s') (hs : s.Sound) : Later s s' := by
  induction h with
  | refl => exact .refl s
  | tail hrun hstep ih => exact ih.trans (hstep.later (Changes.sound hrun hs))

theorem Sound.fail (hs : s.Sound) (id : LineId) (span : Span) (message : String) :
    (s.fail id span message).Sound := by
  have hchanges : Changes .all s (s.fail id span message) := changes_fail s id span message
  exact hchanges.sound hs

theorem Sound.note (hs : s.Sound) {event : Event}
    (hevaluated : ∀ e, event = .evaluated e → e.scope < s.symbols.scopes.size)
    (hemitted : ∀ id cells, event = .emitted id cells → none ∈ cells → s.pass.isFinal = true → s.Failed) :
    (s.note event).Sound := by
  refine hs.lineStep rfl rfl rfl rfl rfl (hs.forest.sameLines rfl rfl) (fun h => h) (fun e he => ?_) (fun j cells he => ?_)
    fun _ => .of_kind rfl rfl rfl .inl
  · exact (List.mem_cons.mp he).symm.imp_right fun heq => hevaluated e heq.symm
  · exact (List.mem_cons.mp he).symm.imp_right fun heq => hemitted j cells heq.symm

theorem Sound.beginLine (hs : s.Sound) (id : LineId) : (s.beginLine id).Sound :=
  hs.modifyLine id (.inl rfl) (.of_kind rfl rfl rfl .inl)

theorem Sound.enterLine (hs : s.Sound) (id : LineId) : (s.enterLine id).Sound := by
  have hentered : ((s.beginLine id).note (.entered id ((s.beginLine id).line id).labelId)).Sound :=
    (hs.beginLine id).note nofun nofun
  unfold Assembly.enterLine
  simp only
  split
  · exact hentered.setLabelValue _ _
  · exact hentered

theorem Sound.countPending (hs : s.Sound) : s.countPending.Sound := hs.around rfl rfl rfl rfl rfl rfl rfl

theorem Sound.valueError (hs : s.Sound) (id : LineId) (span : Span) (message : String) :
    (s.valueError id span message).Sound := by
  unfold Assembly.valueError
  split
  · exact hs.fail id span message
  · exact hs.countPending

theorem Sound.evaluate (hs : s.Sound) {id : LineId} (hid : id < s.lines.size) (e : Expression)
    (token : Token) : (s.evaluate id e token).2.Sound := by
  have hnote : ∀ e : Evaluation, e.scope = (s.line id).scope → (s.note (.evaluated e)).Sound := by
    refine fun e hscope => hs.note (fun e' heq => ?_) nofun
    cases heq
    exact hscope ▸ hs.placed id hid
  unfold Assembly.evaluate
  simp only
  split
  · exact hnote _ rfl
  · exact (hnote _ rfl).countPending
  · exact (hnote _ rfl).valueError _ _ _

theorem Sound.written (hs : s.Sound) (id : LineId) {cells : List Cell}
    (h : none ∈ cells → s.pass.isFinal = true → s.Failed) :
    ({ s.note (.emitted id cells) with
      cursor := (s.note (.emitted id cells)).cursor.advance cells.length }.modifyLine id
        fun l => { l with bytes := cells }).Sound := by
  have hnote : (s.note (.emitted id cells)).Sound := by
    refine hs.note nofun fun j cells' heq => ?_
    cases heq
    exact h
  generalize s.note (.emitted id cells) = noted at hnote ⊢
  have hcursor : { noted with cursor := noted.cursor.advance cells.length }.Sound :=
    hnote.around rfl rfl rfl rfl rfl rfl rfl
  exact hcursor.modifyLine id (.inl rfl) (.of_kind rfl rfl rfl .inl)

theorem Sound.emit (hs : s.Sound) (id : LineId) {cells : List Cell}
    (h : none ∈ cells → s.pass.isFinal = true → s.Failed) : (s.emit id cells).Sound := by
  unfold Assembly.emit
  cases s.image.write s.cursor.base cells with
  | ok image =>
    have himage : { s with image }.Sound := hs.around rfl rfl rfl rfl rfl rfl rfl
    exact himage.written id h
  | error err =>
    exact (hs.fail id (s.line id).origin.span err.message).written id fun _ _ => failed_fail s id _ _

theorem Step.sound (h : Step may s s') (hs : s.Sound) : s'.Sound := by
  cases h with
  | change h => exact h.sound hs
  | hide label _ => exact hs.keeps (SymbolTable.keeps_unbind _ _)
  | unhide h _ => exact hs.keeps (SymbolTable.keeps_rebind h)
  | begin id => exact hs.beginLine id
  | enter id => exact hs.enterLine id
  | count => exact hs.note nofun nofun
  | number _ _ label value => exact hs.setLabelValue label _
  | move => exact hs.around rfl rfl rfl rfl rfl rfl rfl
  | evaluate id e token hid => exact hs.evaluate hid e token
  | emit id _ cells h => exact hs.emit id h

theorem failed_valueError (h : s.Failed) (id : LineId) (span : Span) (message : String) :
    (s.valueError id span message).Failed := by
  unfold valueError
  split
  · exact failed_fail s id span message
  · exact h

theorem Step.failed (h : Step may s s') (hs : s.Failed) : s'.Failed := by
  cases h with
  | change h => exact h.failed hs
  | hide | unhide | begin | move | count => exact hs
  | enter id =>
    unfold enterLine
    simp only
    split
    · rename_i label _
      have hentered : ((s.beginLine id).note (.entered id ((s.beginLine id).line id).labelId)).Failed :=
        hs
      exact failed_setLabelValue hentered label _
    · exact hs
  | number _ _ label value => exact failed_setLabelValue hs label _
  | evaluate id e token _ =>
    unfold Assembly.evaluate
    simp only
    split
    · exact hs
    · exact hs
    · exact failed_valueError (s := s.note _) hs _ _ _
  | emit id _ cells _ =>
    unfold Assembly.emit
    cases s.image.write s.cursor.base cells with
    | ok image => exact hs
    | error err => exact failed_fail s id (s.line id).origin.span err.message

theorem symbols_evaluate (s : Assembly) (id : LineId) (e : Expression) (token : Token) :
    (s.evaluate id e token).2.symbols = s.symbols ∧ (s.evaluate id e token).2.rowLabels = s.rowLabels := by
  unfold Assembly.evaluate Assembly.valueError
  simp only
  split
  · exact ⟨rfl, rfl⟩
  · exact ⟨rfl, rfl⟩
  · split <;> exact ⟨rfl, rfl⟩

theorem symbols_emit (s : Assembly) (id : LineId) (cells : List Cell) :
    (s.emit id cells).symbols = s.symbols ∧ (s.emit id cells).rowLabels = s.rowLabels := by
  unfold Assembly.emit
  cases s.image.write s.cursor.base cells <;> exact ⟨rfl, rfl⟩

theorem later_evaluate (s : Assembly) (id : LineId) (e : Expression) (token : Token) :
    Later s (s.evaluate id e token).2 :=
  RowGrowth.later (.of_eq (by rw [(symbols_evaluate s id e token).1]) (symbols_evaluate s id e token).2)

theorem Step.later (h : Step may s s') (hs : s.Sound) : Later s s' := by
  cases h with
  | change h => exact h.later hs
  | hide label => exact (RowGrowth.of_keeps (SymbolTable.keeps_unbind _ _)).later
  | unhide h => exact (RowGrowth.of_keeps (SymbolTable.keeps_rebind h)).later
  | begin | move | count => exact RowGrowth.later (.of_eq rfl rfl)
  | enter id =>
    unfold Assembly.enterLine
    simp only
    split
    · rename_i label _
      have hentered : Later s ((s.beginLine id).note (.entered id ((s.beginLine id).line id).labelId)) :=
        RowGrowth.later (.of_eq rfl rfl)
      exact hentered.trans (later_setLabelValue _ label _)
    · exact RowGrowth.later (.of_eq rfl rfl)
  | number _ _ label value => exact later_setLabelValue s label _
  | evaluate id e token => exact later_evaluate s id e token
  | emit id _ cells =>
    exact RowGrowth.later (.of_eq (by rw [(symbols_emit s id cells).1]) (symbols_emit s id cells).2)

theorem Steps.sound (h : Steps may s s') (hs : s.Sound) : s'.Sound := by
  induction h with
  | refl => exact hs
  | tail _ hstep ih => exact hstep.sound ih

theorem Steps.later (h : Steps may s s') (hs : s.Sound) : Later s s' := by
  induction h with
  | refl => exact .refl s
  | tail hrun hstep ih => exact ih.trans (hstep.later (Steps.sound hrun hs))

theorem Steps.failed (h : Steps may s s') (hs : s.Failed) : s'.Failed := by
  induction h with
  | refl => exact hs
  | tail _ hstep ih => exact hstep.failed ih

end Assembly

end CrossAssembler
