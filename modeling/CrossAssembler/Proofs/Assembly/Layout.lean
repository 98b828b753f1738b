import CrossAssembler.Proofs.Assembly.Numbering

/-!
# Data groups write their cells

The cells of a data group are evaluated in order, and what each comes to is written after the cells before it.

Principal result: `Steps.indexed` — all the while, data groups have the cells of their rows, indexes say where
names stand in them, and what data groups have written are their cells.
-/

namespace CrossAssembler.Assembly

variable {s s' : Assembly} {may : Permit} {id : LineId} {part : Line.CommandPart} {token : Token} {width : Nat}

/-! ## Cells -/

/-- A line that is no data group may write anything. -/
theorem unbound_of_other (hs : s.Sound) (hid : id < s.lines.size)
    (hother : ∀ d, (s.line id).directive? = some d → d.opens .endGroup = false) : s.Unbound id := by
  intro t hrun cells
  refine ⟨Nat.lt_of_lt_of_le hid hrun.size_le, fun d width hd hopens _ => ?_⟩
  rw [(hrun.linesKept hs).directive id hid] at hd
  exact absurd hopens (Bool.eq_false_iff.mp (hother d hd))

theorem Weighs.mono {scope : ScopeId} {e : Evaluation} (h : s.Weighs scope token e) (hsteps : Steps may s s') :
    s'.Weighs scope token e := ⟨hsteps.journal_subset h.1, h.2⟩

theorem numericCells_layout (s : Assembly) (id : LineId) (token : Token) (value : Value) (width : Nat) :
    (s.numericCells id token value width).2.Failed ∨ ∃ n, value.toWord = .ok n ∧
      (s.numericCells id token value width).1 = (littleEndian width n.toInt).map some := by
  unfold numericCells
  split
  · rename_i n heq
    exact .inr ⟨n, heq, rfl⟩
  · exact .inl (failed_fail s id _ _)

theorem valueCells_layout {e : Expression} (hparse : Expression.parse token.text = .ok e) (width : Nat) :
    let r := s.valueCells id token e width
    r.2.Failed ∨ ∃ ev, r.2.Weighs (s.line id).scope token ev ∧
      (ev.IsSingle → ∃ n, ev.word? = some n ∧ r.1 = (littleEndian width n.toInt).map some) := by
  have hweighs : (s.evaluate id e token).2.Weighs (s.line id).scope token (s.evaluation id e token) := by
    refine ⟨?_, rfl, rfl, hparse⟩
    rw [journal_evaluate]
    exact List.mem_cons_self
  have hvalue := value_evaluate s id e token
  -- A value that makes one cell is read as a word.
  have hnumeric : ∀ value t, s.evaluate id e token = (.known value, t) → let r := t.numericCells id token value width
      r.2.Failed ∨ ∃ ev, r.2.Weighs (s.line id).scope token ev ∧
        (ev.IsSingle → ∃ n, ev.word? = some n ∧ r.1 = (littleEndian width n.toInt).map some) := by
    intro value t heq
    rw [heq] at hweighs hvalue
    refine (numericCells_layout t id token value width).imp_right fun ⟨n, hn, hcells⟩ => ?_
    refine ⟨_, hweighs.mono (supplies_numericCells t id token value width).steps, fun _ => ⟨n, ?_, hcells⟩⟩
    rw [Evaluation.word?, ← hvalue]
    simp [Answer.value?, hn, Except.toOption]
  unfold valueCells
  split
  · rename_i text t heq
    split
    · exact hnumeric _ t heq
    rename_i hlength
    rw [heq] at hweighs hvalue
    refine .inr ⟨_, hweighs.mono (supplies_characterCells token width text.toList t).steps, ?_⟩
    rintro ⟨value, hsome, hsingle⟩
    cases hvalue.trans hsome
    exact absurd hsingle hlength
  · rename_i value t _ heq
    exact hnumeric value t heq
  · rename_i answer t _ hunknown heq
    rw [heq] at hweighs hvalue
    refine .inr ⟨_, hweighs, ?_⟩
    rintro ⟨value, hsome, -⟩
    cases answer with
    | known value => exact (hunknown value rfl).elim
    | pending => cases hvalue.trans hsome
    | failed => cases hvalue.trans hsome

theorem laidOut_nil (s : Assembly) (scope : ScopeId) (width : Nat) : s.LaidOut scope width [] [] :=
  ⟨[], .nil, fun _ => ⟨[], rfl, rfl⟩⟩

theorem LaidOut.cons {scope : ScopeId} {tokens : List Token} {bytes out : List Cell} {ev : Evaluation}
    (h : s.LaidOut scope width tokens out) (hweighs : s.Weighs scope token ev)
    (hbytes : ev.IsSingle → ∃ n, ev.word? = some n ∧ bytes = (littleEndian width n.toInt).map some) :
    s.LaidOut scope width (token :: tokens) (bytes ++ out) := by
  obtain ⟨evaluations, hall, hwords⟩ := h
  refine ⟨ev :: evaluations, .cons hweighs hall, fun hsingle => ?_⟩
  obtain ⟨hfirst, hrest⟩ := List.forall_mem_cons.mp hsingle
  obtain ⟨n, hn, rfl⟩ := hbytes hfirst
  obtain ⟨words, hmap, rfl⟩ := hwords hrest
  exact ⟨n :: words, by rw [List.map_cons, List.map_cons, hn, hmap], by rw [List.flatMap_cons]⟩

/-- Cells that have been read are written one after another. -/
theorem dataCells_layout (width : Nat) : ∀ (cells : List GroupCell) {s : Assembly}, s.Sound → id < s.lines.size →
    (∀ c ∈ cells, c.IsRead) →
    let r := s.dataCells id width (cells.map fun c => (c.token, c.expression))
    r.2.Failed ∨ r.2.LaidOut (s.line id).scope width (cells.map fun c => c.token) r.1
  | [], s, _, _, _ => .inr (laidOut_nil s _ width)
  | c :: cells, s, hs, hid, hread => by
    obtain ⟨⟨e, hexpression, hparse⟩, hrest⟩ := List.forall_mem_cons.mp hread
    have hfirst := (supplies_valueCells hid c.token e width).steps
    have hvalue : let r := s.valueCells id c.token e width
        r.2.Failed ∨ ∃ ev, r.2.Weighs (s.line id).scope c.token ev ∧
          (ev.IsSingle → ∃ n, ev.word? = some n ∧ r.1 = (littleEndian width n.toInt).map some) :=
      valueCells_layout hparse width
    simp only [List.map_cons, dataCells, hexpression]
    generalize s.valueCells id c.token e width = first at hfirst hvalue ⊢
    have hid' := Nat.lt_of_lt_of_le hid hfirst.size_le
    have hlater : Steps .still first.2 (first.2.dataCells id width (cells.map fun c => (c.token, c.expression))).2 :=
      (supplies_dataCells width _ hid').steps
    have hcells := dataCells_layout width cells (hfirst.sound hs) hid' hrest
    rw [(hfirst.linesKept hs).scope id hid] at hcells
    rcases hvalue with hfailed | ⟨ev, hweighs, hbytes⟩
    · exact .inl (hlater.failed hfailed)
    · exact hcells.imp_right fun h => h.cons (hweighs.mono hlater) hbytes

/-- A data group writes its cells. -/
theorem delivers_compileGroup (hs : s.Sound) (hid : id < s.lines.size) (hkind : (s.line id).kind = .command part)
    (hwidth : part.directive.cellWidth? = some width)
    (h : (∀ cells, part.state = .group cells → ∀ c ∈ cells, c.IsRead) ∨ s.Failed) :
    Delivers id s (s.compileGroup id part width) := by
  unfold compileGroup
  split
  · rename_i cells hstate
    have hsteps : Steps .still s (s.dataCells id width (cells.map fun c => (c.token, c.expression))).2 :=
      (supplies_dataCells width _ hid).steps
    refine delivers_emit_data hid (h.imp_left fun hall v hv => ?_) ⟨Nat.lt_of_lt_of_le hid hsteps.size_le, ?_⟩
    · obtain ⟨c, hc, rfl⟩ := List.mem_map.mp hv
      obtain ⟨e, he, -⟩ := hall cells hstate c hc
      rw [he]
      exact Option.some_ne_none e
    intro d w hd hopens hw
    rw [(hsteps.linesKept hs).directive id hid, directive_of_kind hkind] at hd
    cases hd
    cases hwidth.symm.trans hw
    rcases h with hread | hfailed
    · refine (dataCells_layout width cells hs hid (hread cells hstate)).imp_right fun hout => ?_
      refine ⟨(part.body.getD [], cells.map fun c => c.token), ?_, (hsteps.linesKept hs).scope id hid ▸ hout⟩
      simp only [Line.table?, (hsteps.kind_eq hs hid not_false).trans hkind, hstate]
    · exact .inl (hsteps.failed hfailed)
  · exact .of_still .refl

/-! ## Steps -/

theorem Step.table (h : Step may s s') (hs : s.Sound) (id : LineId) {table : List LineId × List Token}
    (htable : (s'.line id).table? = some table) :
    (s.line id).table? = some table ∨ s.Tabulated id table.1 table.2 ∨ s.Failed := by
  rcases h.change_or_writes with h | h
  · exact (h.declares_or_keeps hs id).symm.imp (fun h => h.table table htable) fun h => h.2 table htable
  · refine .inl ?_
    rw [← htable, Line.table?, Line.table?, h.kinds id]

theorem Step.groups (h : Step may s s') (hs : s.Sound) :
    ∀ g ∈ s'.symbols.groups, g ∈ s.symbols.groups ∨ s.Describes g ∨ s.Failed := by
  cases h with
  | change h => exact h.groups hs
  | hide label => exact fun g hg => .inl ((SymbolTable.keeps_unbind _ _).groups ▸ hg)
  | unhide h => exact fun g hg => .inl ((SymbolTable.keeps_rebind h).groups ▸ hg)
  | begin | move | count => exact fun g => .inl
  | enter id =>
    intro g hg
    refine .inl ?_
    unfold enterLine at hg
    simp only at hg
    split at hg
    · rwa [groups_setLabelValue] at hg
    · exact hg
  | number _ _ label => exact fun g hg => .inl (groups_setLabelValue s label _ ▸ hg)
  | evaluate id e token => exact fun g hg => .inl ((symbols_evaluate s id e token).1 ▸ hg)
  | emit id _ cells => exact fun g hg => .inl ((symbols_emit s id cells).1 ▸ hg)

theorem Step.emitted (h : Step may s s') (out : List Cell) (hmem : .emitted id out ∈ s'.journal) :
    .emitted id out ∈ s.journal ∨ s.Lays id out := by
  rcases h.journal with heq | ⟨event, heq, -, hlays⟩
  · exact .inl (heq ▸ hmem)
  · rw [heq] at hmem
    exact (List.mem_cons.mp hmem).symm.imp_right fun hnew => hlays id out hnew.symm

/-- Steps keep tables, indexes and what data groups have written. -/
theorem Steps.indexed (h : Steps may s s') (hs : s.Sound) (hindexed : s.Failed ∨ s.Indexed) :
    s'.Failed ∨ s'.Indexed := by
  induction h with
  | refl => exact hindexed
  | @tail t _ hrun hstep ih =>
    have hsound := Steps.sound hrun hs
    have hone : Steps may t _ := .single hstep
    have hlater := hstep.later hsound
    refine Indexed.after ih hsound hone.failed (hone.linesKept hsound) hstep.size_le hlater
      (fun label id hmem hother hvalue => ?_) (fun id table => hstep.table hsound id) (hstep.groups hsound)
      hone.journal_subset fun id out => hstep.emitted out
    exact hstep.value_row hsound (hlater.kept hmem) (fun hawaits => hvalue hawaits.1) fun _ => hother

end CrossAssembler.Assembly
