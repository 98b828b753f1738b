import CrossAssembler.Proofs.Assembly.Work

/-!
# Enumerations count their rows

The labels of the rows of an enumeration get values from its own line only. Each row is one length further
than the row before, as long as all lengths are known.

Principal result: `numbered_compileEnumeration` — an enumeration that is compiled counts its rows.
-/

namespace CrossAssembler

namespace Assembly

variable {s s' old old' : Assembly} {may : Permit} {id : LineId} {scope : ScopeId}
variable {label : LabelId} {part : Line.CommandPart}

/-! ## What is evaluated -/

/-- The evaluation that an expression on a line has. -/
def evaluation (s : Assembly) (id : LineId) (e : Expression) (token : Token) : Evaluation where
  expression := e
  token := token
  scope := (s.line id).scope
  org := (s.line id).org
  lookups := e.references.filterMap fun r => s.lookUp? (s.line id).scope token r.1 r.2.1
  outcome := e.evaluate (s.resolver (s.line id).scope token (s.line id).org) s.pass.mode

theorem journal_valueError (id : LineId) (span : Span) (message : String) :
    (s.valueError id span message).journal = s.journal := by
  unfold valueError
  split <;> rfl

theorem journal_evaluate (id : LineId) (e : Expression) (token : Token) :
    (s.evaluate id e token).2.journal = .evaluated (s.evaluation id e token) :: s.journal := by
  unfold evaluate
  simp only
  split
  · rfl
  · rfl
  · exact journal_valueError (s := s.note _) id _ _

theorem journal_emit (id : LineId) (cells : List Cell) :
    (s.emit id cells).journal = .emitted id cells :: s.journal := by
  unfold emit
  cases s.image.write s.cursor.base cells <;> rfl

theorem journal_enterLine (s : Assembly) (id : LineId) :
    (s.enterLine id).journal = .entered id ((s.beginLine id).line id).labelId :: s.journal := by
  unfold enterLine
  simp only
  split
  · exact journal_setLabelValue _ _ _
  · rfl

/-- What has been done in a pass stays, only a line that may be written begins to count, and data groups write
their cells. -/
theorem Step.journal (h : Step may s s') : s'.journal = s.journal ∨
    ∃ event, s'.journal = event :: s.journal ∧ (∀ id, event = .numbered id → may.write id) ∧
      ∀ id out, event = .emitted id out → s.Lays id out := by
  cases h with
  | change h => exact .inl (journal_change h)
  | hide | unhide | begin | move => exact .inl rfl
  | enter id => exact .inr ⟨_, journal_enterLine s id, nofun, nofun⟩
  | count id hown =>
    refine .inr ⟨_, rfl, fun k heq => ?_, nofun⟩
    cases heq
    exact hown
  | number _ _ label => exact .inl (journal_setLabelValue s label _)
  | evaluate id e token => exact .inr ⟨_, journal_evaluate id e token, nofun, nofun⟩
  | emit id _ cells _ lays =>
    refine .inr ⟨_, journal_emit id cells, nofun, fun k out heq => ?_⟩
    cases heq
    exact lays

theorem Steps.journal_subset (h : Steps may s s') : s.journal ⊆ s'.journal := by
  induction h with
  | refl => exact List.Subset.refl _
  | tail _ hstep ih =>
    rcases hstep.journal with heq | ⟨event, heq, -⟩
    · exact heq ▸ ih
    · exact heq ▸ List.subset_cons_of_subset event ih

theorem Steps.numbered (h : Steps may s s') (hid : .numbered id ∈ s'.journal) :
    .numbered id ∈ s.journal ∨ may.write id := by
  induction h with
  | refl => exact .inl hid
  | tail _ hstep ih =>
    rcases hstep.journal with heq | ⟨event, heq, hown, -⟩
    · exact ih (heq ▸ hid)
    · rw [heq] at hid
      rcases List.mem_cons.mp hid with hnew | hold
      · exact .inr (hown id hnew.symm)
      · exact ih hold

/-- Whether an expression has been evaluated in a scope in the running pass, and to which integer. -/
def Evaluates (s : Assembly) (scope : ScopeId) (e : Expression) (token : Token) (answer : Option Int64) : Prop :=
  ∃ ev, .evaluated ev ∈ s.journal ∧ ev.expression = e ∧ ev.token = token ∧ ev.scope = scope ∧ ev.word? = answer

theorem value_evaluate (s : Assembly) (id : LineId) (e : Expression) (token : Token) :
    (s.evaluate id e token).1.value? = (s.evaluation id e token).value? := by
  unfold evaluate evaluation Evaluation.value?
  simp only
  split <;> rename_i heq <;> rw [heq] <;> rfl

theorem value_evaluateWord (s : Assembly) (id : LineId) (e : Expression) (token : Token) :
    (s.evaluateWord id e token).1.value? = (s.evaluation id e token).word? := by
  rw [Evaluation.word?, ← value_evaluate]
  unfold evaluateWord
  split
  · rename_i value t heq
    rw [heq]
    split
    · rename_i heq
      simp [Answer.value?, heq, Except.toOption]
    · rename_i heq
      simp [Answer.value?, heq, Except.toOption]
  · rename_i heq
    rw [heq]
    rfl
  · rename_i heq
    rw [heq]
    rfl

theorem evaluates_evaluateWord (s : Assembly) (id : LineId) (e : Expression) (token : Token) :
    (s.evaluateWord id e token).2.Evaluates (s.line id).scope e token (s.evaluateWord id e token).1.value? := by
  have hmem : .evaluated (s.evaluation id e token) ∈ (s.evaluate id e token).2.journal := by
    rw [journal_evaluate]
    exact List.mem_cons_self
  refine ⟨s.evaluation id e token, ?_, rfl, rfl, rfl, (value_evaluateWord s id e token).symm⟩
  rcases evaluateWord_eq s id e token with ⟨heq, _⟩ | ⟨message, heq⟩
  · exact heq ▸ hmem
  · exact heq ▸ hmem

/-! ## Values of labels -/

theorem value_row_enterLine (hs : s.Sound) {j : LineId} (hrow : (label, id) ∈ (s.enterLine j).rowLabels) :
    ((s.enterLine j).symbols.label label).value = (s.symbols.label label).value := by
  unfold enterLine at hrow ⊢
  simp only at hrow ⊢
  split at hrow
  · rename_i other hother
    rw [rowLabels_setLabelValue] at hrow
    exact value_setLabelValue_of_ne _ (Free.ne ((hs.beginLine j).named hother) hrow)
  · rfl

/-- The label of a row gets a value only from the line of its enumeration, or once from that of its data group. -/
theorem Step.value_row (h : Step may s s') (hs : s.Sound) (hrow : (label, id) ∈ s'.rowLabels) (hset : ¬ s.Awaits label)
    (hid : may.write id → (s.line id).directive? ≠ some .enumeration) :
    (s'.symbols.label label).value = (s.symbols.label label).value := by
  cases h with
  | change h => exact h.value_row hs hrow hset
  | hide other => exact (SymbolTable.keeps_unbind _ _).value label
  | unhide h => exact (SymbolTable.keeps_rebind h).value label
  | begin | move | count => rfl
  | enter j => exact value_row_enterLine hs hrow
  | number j hown other value hother henum =>
    rw [rowLabels_setLabelValue] at hrow
    refine value_setLabelValue_of_ne _ fun heq => ?_
    cases hs.row_inj (heq ▸ hrow) hother
    exact hid hown henum
  | evaluate j e token => rw [(symbols_evaluate s j e token).1]
  | emit j _ cells => rw [(symbols_emit s j cells).1]

theorem Later.value_of_size_le (h : Later s s') (hnew : s'.symbols.labels.size ≤ label) :
    (s'.symbols.label label).value = (s.symbols.label label).value := by
  rw [SymbolTable.value_of_size_le hnew, SymbolTable.value_of_size_le (Nat.le_trans h.labels hnew)]

/-- The row of an enumeration waits for no value of a data group. -/
theorem Sound.not_awaits (hs : s.Sound) (henum : ∀ d, (s.line id).directive? = some d → d = .enumeration)
    (hrow : (label, id) ∈ s.rowLabels ∨ s.symbols.labels.size ≤ label) : ¬ s.Awaits label := by
  rintro ⟨-, other, d, hother, hd, hopens⟩
  rcases hrow with hrow | hnew
  · cases hs.row_inj hrow hother
    cases henum d hd
    cases hopens
  · exact Nat.not_lt_of_le hnew (hs.rowLabels _ hother).1

/-- The labels of rows keep their values while the line of their enumeration is not reached. -/
theorem Steps.value_row (h : Steps may s s') (hs : s.Sound)
    (henum : ∀ d, (s'.line id).directive? = some d → d = .enumeration)
    (hrow : (label, id) ∈ s'.rowLabels ∨ s'.symbols.labels.size ≤ label) (hid : ¬ may.write id) :
    (s'.symbols.label label).value = (s.symbols.label label).value := by
  induction h with
  | refl => rfl
  | tail hrun hstep ih =>
    have hsound := Steps.sound hrun hs
    have henum' := fun d hd => henum d ((Steps.linesKept (.single hstep) hsound).directive_some hd)
    rcases hrow with hrow | hnew
    · have hold := (hstep.later hsound).new _ hrow
      rw [hstep.value_row hsound hrow (hsound.not_awaits henum' hold) fun h => absurd h hid]
      exact ih henum' hold
    · exact ((Steps.later hrun hs).trans (hstep.later hsound)).value_of_size_le hnew

/-! ## Counting -/

/-- The length of a row: one, or what its expression has come to in the running pass. -/
def HasLength (s : Assembly) (scope : ScopeId) (row : EnumRow) (length : Option Int64) : Prop :=
  match row.length with
  | none => length = some 1
  | some token => ∃ e, row.expression = some e ∧ s.Evaluates scope e token length

/-- The start of an enumeration: zero, or what its argument has come to in the running pass. -/
def HasStart (s : Assembly) (scope : ScopeId) (part : Line.CommandPart) (start : Option Int64) : Prop :=
  match part.arguments with
  | [] => start = some 0
  | token :: _ => ∃ e, part.expression? 0 = some e ∧ s.Evaluates scope e token start

/-- Whether rows count from a number on, each by the length of the row before. Below a length that is not
known they keep the values they had before, and in a final pass there are none. -/
def Counts (final : Bool) (old s : Assembly) (scope : ScopeId) : Option Int64 → List EnumRow → Prop
  | _, [] => True
  | some n, row :: rows =>
    (s.symbols.label row.label).value = some (.ofWord n) ∧
      ∃ length, s.HasLength scope row length ∧ Counts final old s scope (length.map (n + ·)) rows
  | none, row :: rows =>
    final = false ∧ (s.symbols.label row.label).value = (old.symbols.label row.label).value ∧
      Counts final old s scope none rows

/-- Whether an enumeration counts its rows, unless there is an error. -/
def Numbered (old s : Assembly) (id : LineId) : Prop :=
  ∀ part rows, (s.line id).kind = .command part → part.directive = .enumeration →
    part.state = .enumeration rows → s.Failed ∨ ∃ start, s.HasStart (s.line id).scope part start ∧
      Counts s.pass.isFinal old s (s.line id).scope start rows

theorem Evaluates.mono {e : Expression} {token : Token} {answer : Option Int64}
    (h : s.Evaluates scope e token answer) (hjournal : s.journal ⊆ s'.journal) :
    s'.Evaluates scope e token answer := h.imp fun _ hev => ⟨hjournal hev.1, hev.2⟩

theorem HasLength.mono {row : EnumRow} {length : Option Int64} (h : s.HasLength scope row length)
    (hjournal : s.journal ⊆ s'.journal) : s'.HasLength scope row length := by
  unfold HasLength at h ⊢
  split at h
  · exact h
  · exact h.imp fun _ he => ⟨he.1, he.2.mono hjournal⟩

theorem HasStart.mono {start : Option Int64} (h : s.HasStart scope part start)
    (hjournal : s.journal ⊆ s'.journal) : s'.HasStart scope part start := by
  unfold HasStart at h ⊢
  split at h
  · exact h
  · exact h.imp fun _ he => ⟨he.1, he.2.mono hjournal⟩

theorem Counts.congr {final : Bool} (hjournal : s.journal ⊆ s'.journal) :
    ∀ {rows : List EnumRow} {current : Option Int64},
      (∀ r ∈ rows, (old'.symbols.label r.label).value = (old.symbols.label r.label).value) →
      (∀ r ∈ rows, (s'.symbols.label r.label).value = (s.symbols.label r.label).value) →
      Counts final old s scope current rows → Counts final old' s' scope current rows
  | [], _, _, _, _ => by
    unfold Counts
    trivial
  | row :: rows, some n, hold, hvalue, h => by
    obtain ⟨hfirst, length, hlength, hrest⟩ := h
    refine ⟨(hvalue row List.mem_cons_self).trans hfirst, length, hlength.mono hjournal, ?_⟩
    exact congr hjournal (fun r hr => hold r (List.mem_cons_of_mem row hr))
      (fun r hr => hvalue r (List.mem_cons_of_mem row hr)) hrest
  | row :: rows, none, hold, hvalue, h => by
    obtain ⟨hfinal, hfirst, hrest⟩ := h
    refine ⟨hfinal, ?_, ?_⟩
    · rw [hvalue row List.mem_cons_self, hold row List.mem_cons_self]
      exact hfirst
    · exact congr hjournal (fun r hr => hold r (List.mem_cons_of_mem row hr))
        (fun r hr => hvalue r (List.mem_cons_of_mem row hr)) hrest

theorem Sound.claims (hs : s.Sound) (hkind : (s.line id).kind = .command part) : s.Claims id part.state := by
  have howned := (hs.owned id).2
  rw [hkind] at howned
  exact howned

/-- An enumeration has counted its rows, and goes on to do so while it is left alone. -/
theorem Numbered.after (h : Numbered old s id) (hsteps : Steps may s s') (hs : s.Sound) (hid : id < s.lines.size)
    (hkind : (s.line id).directive? = some .enumeration → (s'.line id).kind = (s.line id).kind)
    (hwrite : ¬ may.write id) : Numbered old s' id := by
  intro part rows hpart hdirective hstate
  have hsame : (s.line id).kind = .command part := by
    rw [← hpart, hkind]
    rw [← (hsteps.linesKept hs).directive id hid, directive_of_kind hpart, hdirective]
  rw [hsteps.pass, (hsteps.linesKept hs).scope id hid]
  refine (h part rows hsame hdirective hstate).imp hsteps.failed fun ⟨start, hstart, hcounts⟩ =>
    ⟨start, hstart.mono hsteps.journal_subset, hcounts.congr hsteps.journal_subset (fun _ _ => rfl) fun r hr => ?_⟩
  have henum := directive_of_kind hpart
  rw [hdirective] at henum
  have hclaims := ((hsteps.sound hs).claims hpart).rows rows hstate
  exact hsteps.value_row hs (fun _ hd => Option.some.inj (hd.symm.trans henum)) (.inl (hclaims.2 r hr)) hwrite

theorem Numbered.earlier (h : Numbered old s id) (hs : s.Sound)
    (hold : (s.line id).directive? = some .enumeration → ∀ label, (label, id) ∈ s.rowLabels →
      (old.symbols.label label).value = (old'.symbols.label label).value) : Numbered old' s id := by
  intro part rows hpart hdirective hstate
  refine (h part rows hpart hdirective hstate).imp_right fun ⟨start, hstart, hcounts⟩ =>
    ⟨start, hstart, hcounts.congr (List.Subset.refl _) (fun r hr => ?_) fun _ _ => rfl⟩
  exact (hold (hdirective ▸ directive_of_kind hpart) r.label ((hs.claims hpart).rows rows hstate |>.2 r hr)).symm

/-! ## Enumerations that are compiled -/

theorem symbols_evaluateWord (s : Assembly) (id : LineId) (e : Expression) (token : Token) :
    (s.evaluateWord id e token).2.symbols = s.symbols ∧ (s.evaluateWord id e token).2.rowLabels = s.rowLabels := by
  rcases evaluateWord_eq s id e token with ⟨heq, -⟩ | ⟨message, heq⟩
  · rw [heq]
    exact symbols_evaluate s id e token
  · rw [heq]
    exact symbols_evaluate s id e token

theorem symbols_rowLength (s : Assembly) (id : LineId) (row : EnumRow) :
    (s.rowLength id row).2.symbols = s.symbols ∧ (s.rowLength id row).2.rowLabels = s.rowLabels := by
  unfold rowLength
  split
  · exact symbols_evaluateWord s id _ _
  · exact ⟨rfl, rfl⟩
  · exact ⟨rfl, rfl⟩

theorem supplies_rowLength (hid : id < s.lines.size) (row : EnumRow) : Supplies s (s.rowLength id row).2
      ((s.rowLength id row).1 = none ∧ (row.length ≠ none → row.expression ≠ none)) := by
  unfold rowLength
  split
  · exact (supplies_evaluateWord hid _ _).imp And.left
  · rename_i hexpression hlength
    exact ⟨.refl, fun h => absurd hexpression (h.2 (by rw [hlength]; exact nofun))⟩
  · exact ⟨.refl, nofun⟩

theorem hasLength_rowLength {row : EnumRow} (h : row.length ≠ none → row.expression ≠ none) :
    (s.rowLength id row).2.HasLength (s.line id).scope row (s.rowLength id row).1 := by
  unfold rowLength
  split
  · rename_i e token hexpression hlength
    rw [HasLength, hlength]
    exact ⟨e, hexpression, evaluates_evaluateWord s id e token⟩
  · rename_i hexpression hlength
    exact absurd hexpression (h (by rw [hlength]; exact nofun))
  · rename_i hlength
    rw [HasLength, hlength]

/-- A row gets the number that has been reached, if it is known. -/
def countRow (s : Assembly) (label : LabelId) : Option Int64 → Assembly
  | some n => s.setLabelValue label (some (.ofWord n))
  | none => s

theorem compileRows_cons (s : Assembly) (id : LineId) (current : Option Int64) (row : EnumRow) (rows : List EnumRow) :
    s.compileRows id current (row :: rows) = ((s.countRow row.label current).rowLength id row).2.compileRows id
      (current.bind fun n => ((s.countRow row.label current).rowLength id row).1.map (n + ·)) rows := by
  cases current with
  | none => rfl
  | some n =>
    rw [compileRows, countRow]
    generalize (s.setLabelValue row.label (some (.ofWord n))).rowLength id row = r
    obtain ⟨length, t⟩ := r
    cases length <;> rfl

theorem rowLabels_countRow (s : Assembly) (label : LabelId) (current : Option Int64) :
    (s.countRow label current).rowLabels = s.rowLabels := by
  cases current with
  | none => rfl
  | some n => exact rowLabels_setLabelValue s label _

theorem value_countRow_of_ne {other : LabelId} (current : Option Int64) (h : other ≠ label) :
    ((s.countRow label current).symbols.label other).value = (s.symbols.label other).value := by
  cases current with
  | none => rfl
  | some n => exact value_setLabelValue_of_ne _ h

theorem writes_countRow (s : Assembly) (label : LabelId) (current : Option Int64) :
    Writes s (s.countRow label current) := by
  cases current with
  | none => exact .of_lines rfl rfl rfl rfl
  | some n => exact writes_setLabelValue s label _

theorem steps_countRow (hown : may.write id) (henum : (s.line id).directive? = some .enumeration)
    (current : Option Int64) (hrow : (label, id) ∈ s.rowLabels) : Steps may s (s.countRow label current) := by
  cases current with
  | none => exact .refl
  | some n => exact .single (.number id hown label _ hrow henum)

theorem steps_compileRows (hown : may.write id) :
    ∀ (rows : List EnumRow) {s : Assembly} (current : Option Int64), s.Sound → id < s.lines.size →
      (s.line id).directive? = some .enumeration → (∀ r ∈ rows, (r.label, id) ∈ s.rowLabels) →
      Steps may s (s.compileRows id current rows)
  | [], _, _, _, _, _, _ => .refl
  | row :: rows, s, current, hs, hid, henum, hrows => by
    obtain ⟨hrow, hrest⟩ := List.forall_mem_cons.mp hrows
    have hset := steps_countRow hown henum current hrow
    have hlength : Steps may _ _ := (supplies_rowLength (Nat.lt_of_lt_of_le hid hset.size_le) row).steps.of_still
    have hrun := hset.trans hlength
    rw [compileRows_cons]
    refine hrun.trans (steps_compileRows hown rows _ (Steps.sound hrun hs) (Nat.lt_of_lt_of_le hid (Steps.size_le hrun))
      ((Steps.linesKept hrun hs).directive_some henum) fun r hr => ?_)
    rw [(symbols_rowLength _ id row).2, rowLabels_countRow]
    exact hrest r hr

theorem value_compileRows :
    ∀ (rows : List EnumRow) (s : Assembly) (current : Option Int64), label ∉ rows.map (fun r => r.label) →
      ((s.compileRows id current rows).symbols.label label).value = (s.symbols.label label).value
  | [], _, _, _ => rfl
  | row :: rows, s, current, h => by
    obtain ⟨hne, hrest⟩ := not_or.mp (mt List.mem_cons.mpr h)
    rw [compileRows_cons, value_compileRows rows _ _ hrest, (symbols_rowLength _ id row).1]
    exact value_countRow_of_ne current hne

/-- Rows that have been read count from a number on that is known, or not in the final pass. -/
theorem counts_compileRows :
    ∀ (rows : List EnumRow) {s : Assembly} (current : Option Int64), s.Sound → id < s.lines.size →
      (s.line id).directive? = some .enumeration → (rows.map fun r => r.label).Nodup → (∀ r ∈ rows, (r.label, id) ∈ s.rowLabels) →
      (∀ r ∈ rows, r.length ≠ none → r.expression ≠ none) →
      (current = none → s.pass.isFinal = true → s.Failed) →
      (s.compileRows id current rows).Failed ∨
        Counts s.pass.isFinal s (s.compileRows id current rows) (s.line id).scope current rows
  | [], _, current, _, _, _, _, _, _, _ => by
    unfold Counts
    exact .inr trivial
  | row :: rows, s, current, hs, hid, henum, hnodup, hrows, hread, hcurrent => by
    obtain ⟨hnew, hnodup'⟩ := List.nodup_cons.mp hnodup
    obtain ⟨hrow, hrows'⟩ := List.forall_mem_cons.mp hrows
    obtain ⟨hfirst, hread'⟩ := List.forall_mem_cons.mp hread
    have hset : Steps .all s (s.countRow row.label current) := steps_countRow trivial henum current hrow
    have hlength := supplies_rowLength (Nat.lt_of_lt_of_le hid hset.size_le) row
    have hgiven : HasLength _ _ row ((s.countRow row.label current).rowLength id row).1 := hasLength_rowLength hfirst
    rw [(writes_countRow s row.label current).scope] at hgiven
    have hsymbols := symbols_rowLength (s.countRow row.label current) id row
    have hlabels := rowLabels_countRow s row.label current
    have hrun : Steps .all s ((s.countRow row.label current).rowLength id row).2 :=
      hset.trans hlength.steps.of_still
    rw [compileRows_cons]
    generalize hmeasured : (s.countRow row.label current).rowLength id row = measured
      at hlength hgiven hsymbols hrun ⊢
    obtain ⟨length, t⟩ := measured
    have hlabels' : ∀ r ∈ rows, (r.label, id) ∈ t.rowLabels := by
      rw [hsymbols.2, hlabels]
      exact hrows'
    have hid' := Nat.lt_of_lt_of_le hid hrun.size_le
    have henum' := (hrun.linesKept hs).directive_some henum
    -- a number that is not known has been reported in the final pass
    have hnext : (current.bind fun n => length.map (n + ·)) = none → t.pass.isFinal = true → t.Failed := by
      intro hnone hfinal
      cases current with
      | none => exact hrun.failed (hcurrent rfl (hrun.pass ▸ hfinal))
      | some n => exact hlength.reported ⟨Option.map_eq_none_iff.mp hnone, hfirst⟩ hfinal
    have hrest := counts_compileRows rows _ (hrun.sound hs) hid' henum' hnodup' hlabels' hread' hnext
    have hkept : ∀ r ∈ rows, (s.symbols.label r.label).value = (t.symbols.label r.label).value := by
      intro r hr
      have hne : r.label ≠ row.label := fun heq => hnew (List.mem_map.mpr ⟨r, hr, heq⟩)
      rw [hsymbols.1, value_countRow_of_ne current hne]
    have hlater : Steps .all t (t.compileRows id (current.bind fun n => length.map (n + ·)) rows) :=
      steps_compileRows trivial rows _ (hrun.sound hs) hid' henum' hlabels'
    have hvalue : ((t.compileRows id (current.bind fun n => length.map (n + ·)) rows).symbols.label row.label).value =
      (t.symbols.label row.label).value := value_compileRows rows t _ hnew
    rw [hrun.pass, (hrun.linesKept hs).scope id hid] at hrest
    generalize t.compileRows id (current.bind fun n => length.map (n + ·)) rows = u at hrest hlater hvalue ⊢
    rcases hrest with hfailed | hcounts
    · exact .inl hfailed
    have hcounts' := hcounts.congr (List.Subset.refl _) hkept fun _ _ => rfl
    cases current with
    | some n =>
      refine .inr ⟨?_, length, hgiven.mono hlater.journal_subset, hcounts'⟩
      rw [hvalue, hsymbols.1]
      exact value_setLabelValue n (hs.rowLabels _ hrow).1
    | none =>
      cases hfinal : s.pass.isFinal with
      | true => exact .inl (hlater.failed (hrun.failed (hcurrent rfl hfinal)))
      | false =>
        refine .inr ⟨rfl, ?_, hfinal ▸ hcounts'⟩
        rw [hvalue, hsymbols.1]
        rfl

theorem steps_compileEnumeration (hown : may.write id) (hs : s.Sound)
    (hid : id < s.lines.size) (hkind : (s.line id).kind = .command part) (hdirective : part.directive = .enumeration) :
    Steps may s (s.compileEnumeration id part) := by
  have henum : (s.line id).directive? = some .enumeration := hdirective ▸ directive_of_kind hkind
  unfold compileEnumeration
  split
  · rename_i rows hstate
    have hrows := ((hs.claims hkind).rows rows hstate).2
    have hbegin : Steps may s (s.note (.numbered id)) := .single (.count id hown)
    simp only
    split
    · exact hbegin.trans (steps_compileRows hown rows _ (hbegin.sound hs) hid henum hrows)
    have hstart : Steps .still (s.note (.numbered id)) ((s.note (.numbered id)).argumentWord id 0).2 :=
      steps_argumentWord (s := s.note (.numbered id)) hid 0
    have hs' := hbegin.sound hs
    refine (hbegin.trans hstart.of_still).trans (steps_compileRows hown rows _ (hstart.sound hs')
      (Nat.lt_of_lt_of_le hid hstart.size_le) ((hstart.linesKept hs').directive_some henum) fun r hr => ?_)
    exact (hstart.later hs').kept (hrows r hr)
  · exact .refl

theorem argumentWord_eq {index : Nat} {e : Expression} {token : Token}
    (hkind : (s.line id).kind = .command part) (he : part.expression? index = some e)
    (htoken : part.arguments[index]? = some token) : s.argumentWord id index = s.evaluateWord id e token := by
  unfold argumentWord Line.command?
  rw [hkind]
  simp only [he, htoken]

theorem compileEnumeration_eq {rows : List EnumRow} (hid : id < s.lines.size)
    (hkind : (s.line id).kind = .command part) (hstate : part.state = .enumeration rows)
    (hread : part.arguments ≠ [] → part.expression? 0 ≠ none) :
    ∃ t start, Steps .all s t ∧ t.symbols = s.symbols ∧ t.HasStart (s.line id).scope part start ∧
      (start = none → t.pass.isFinal = true → t.Failed) ∧
      s.compileEnumeration id part = t.compileRows id start rows := by
  have hbegin : Step .all s (s.note (.numbered id)) := .count id trivial
  rw [compileEnumeration, hstate]
  cases harguments : part.arguments with
  | nil =>
    refine ⟨s.note (.numbered id), some 0, .single hbegin, rfl, ?_, nofun, rfl⟩
    rw [HasStart, harguments]
  | cons token arguments =>
    obtain ⟨e, he⟩ := Option.ne_none_iff_exists'.mp (hread (by rw [harguments]; exact nofun))
    have hword := argumentWord_eq (s := s.note (.numbered id)) hkind he (by rw [harguments]; rfl)
    have hsupplies := supplies_evaluateWord (s := s.note (.numbered id)) hid e token
    refine ⟨_, _, .head hbegin hsupplies.steps.of_still, (symbols_evaluateWord _ id e token).1, ?_,
      hsupplies.reported, ?_⟩
    · rw [HasStart, harguments]
      exact ⟨e, he, evaluates_evaluateWord (s.note (.numbered id)) id e token⟩
    · simp only [List.isEmpty_cons, Bool.false_eq_true, if_false, hword]

theorem numbered_compileEnumeration (hs : s.Sound) (hid : id < s.lines.size)
    (hkind : (s.line id).kind = .command part) (hdirective : part.directive = .enumeration)
    (hread : part.IsRead ∨ s.Failed) : Numbered s (s.compileEnumeration id part) id := by
  -- the line itself is not changed
  have hsteps : Steps ⟨fun _ => False, fun _ => False, fun _ => False, fun _ => True, fun _ h => h, fun _ h => h⟩ s
      (s.compileEnumeration id part) := steps_compileEnumeration trivial hs hid hkind hdirective
  intro part' rows hkind' _ hstate
  rw [hsteps.kind_eq hs hid not_false, hkind] at hkind'
  cases hkind'
  rw [hsteps.pass, (hsteps.linesKept hs).scope id hid]
  rcases hread with hread | hfailed
  · obtain ⟨hfirst, hlengths⟩ := hread.lengths hdirective rows hstate
    obtain ⟨hnodup, hrows⟩ := (hs.claims hkind).rows rows hstate
    obtain ⟨t, start, hrun, hsymbols, hstart, hknown, heq⟩ := compileEnumeration_eq hid hkind hstate hfirst
    have hrows' : ∀ r ∈ rows, (r.label, id) ∈ t.rowLabels := fun r hr => (hrun.later hs).kept (hrows r hr)
    have hid' := Nat.lt_of_lt_of_le hid hrun.size_le
    have henum := (hrun.linesKept hs).directive_some (hdirective ▸ directive_of_kind hkind)
    have hlater : Steps .all t (t.compileRows id start rows) :=
      steps_compileRows trivial rows start (hrun.sound hs) hid' henum hrows'
    have hcounts := counts_compileRows rows start (hrun.sound hs) hid' henum hnodup hrows' hlengths hknown
    rw [heq]
    rw [hrun.pass, (hrun.linesKept hs).scope id hid] at hcounts
    refine hcounts.imp_right fun hcounts => ⟨start, hstart.mono hlater.journal_subset, ?_⟩
    exact hcounts.congr (List.Subset.refl _) (fun _ _ => by rw [hsymbols]) fun _ _ => rfl
  · exact .inl (hsteps.failed hfailed)

end Assembly

end CrossAssembler
