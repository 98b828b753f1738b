import CrossAssembler.Proofs.Assembly.Passes

/-!
# Labels settle in the final pass

A pass reads values that labels have from the pass before. In a final pass that reports nothing, whatever
has been read once is never replaced: a label that gets another value would be unsettled.

Principal results: `Step.settled`, `Steps.settled` — a calm pass stays settled; `Concluded.settled` — so
does work that ends in one; `fixpoint_of_no_warning` — what was evaluated is what the final labels give.
-/

namespace CrossAssembler

/-! ## Evaluations -/

/-- What an evaluation that gave a value rests on: everything it refers to but the address of its own line
was looked up, and whatever gives the same values gives the same outcome. -/
structure Evaluation.Grounded (e : Evaluation) : Prop where
  resolved : ∃ v, e.outcome = .ok (.resolved v)
  complete : ∀ r ∈ e.expression.references, r.1 ≠ .here →
    ∃ found ∈ e.lookups, found.reference = r.1 ∧ found.start = r.2.1
  rests : ∀ resolve mode, (∀ start stop, resolve .here start stop = some (.ofWord e.org)) →
    (∀ found ∈ e.lookups, ∀ stop, resolve found.reference found.start stop = some found.value) →
      e.expression.evaluate resolve mode = e.outcome

namespace Assembly

variable {s s' : Assembly} {may : Permit}
variable {label : LabelId} {value : Option Value} {token : Token} {id : LineId}

/-! ## Calm passes -/

/-- Whether the final pass has come so far without an error or an unsettled label, where no line is an
assignment or a conditional. -/
structure Calm (s : Assembly) : Prop where
  final : s.pass.isFinal = true
  plain : s.Plain
  passed : ¬ s.Failed
  settled : s.progress.unsettled = none

theorem unsettled_of_setLabelValue
    (h : (s.setLabelValue label value).progress.unsettled = none) : s.progress.unsettled = none := by
  unfold setLabelValue at h
  simp only at h
  split at h
  · split at h
    · cases h
    · exact h
  · exact h

theorem Change.unsettled (h : Change may s s') (hnone : s'.progress.unsettled = none) :
    s.progress.unsettled = none := by
  cases h with
  | around _ _ _ _ h => exact h ▸ hnone
  | assign label value => exact unsettled_of_setLabelValue hnone
  | report | mark | modify | name | define | document | register | addScope | push => exact hnone

theorem unsettled_valueError (id : LineId) (span : Span) (message : String) :
    (s.valueError id span message).progress.unsettled = s.progress.unsettled := by
  unfold valueError
  split <;> rfl

theorem unsettled_evaluate (id : LineId) (e : Expression) (token : Token) :
    (s.evaluate id e token).2.progress.unsettled = s.progress.unsettled := by
  unfold evaluate
  simp only
  split
  · rfl
  · rfl
  · exact unsettled_valueError (s := s.note _) id _ _

theorem unsettled_emit (id : LineId) (cells : List Cell) :
    (s.emit id cells).progress.unsettled = s.progress.unsettled := by
  unfold emit
  cases s.image.write s.cursor.base cells <;> rfl

theorem Step.unsettled (h : Step may s s') (hnone : s'.progress.unsettled = none) : s.progress.unsettled = none := by
  cases h with
  | change h => exact h.unsettled hnone
  | hide | unhide | begin | count | move => exact hnone
  | number => exact unsettled_of_setLabelValue hnone
  | enter id =>
    unfold enterLine at hnone
    simp only at hnone
    split at hnone
    · exact unsettled_of_setLabelValue (s := (s.beginLine id).note _) hnone
    · exact hnone
  | evaluate id e token => exact unsettled_evaluate id e token ▸ hnone
  | emit id _ cells => exact unsettled_emit id cells ▸ hnone

/-- A pass that is calm has been calm before. -/
theorem Step.calm (h : Step may s s') (hs : s.Sound) (hcalm : s'.Calm) : s.Calm where
  final := h.pass ▸ hcalm.final
  plain := Steps.plain (.single h) hs hcalm.plain
  passed hfailed := hcalm.passed (h.failed hfailed)
  settled := h.unsettled hcalm.settled

/-! ## What has been read stands -/

/-- Whether a label with a value keeps it. -/
def KeepsValues (t t' : SymbolTable) : Prop :=
  ∀ label v, (t.label label).value = some v → (t'.label label).value = some v

/-- What a step keeps of the labels that lines and expressions rest on. -/
structure KeepsReading (s s' : Assembly) : Prop where
  value : KeepsValues s.symbols s'.symbols
  resolve : ∀ e, .evaluated e ∈ s.journal → ∀ r line column label,
    s.symbols.resolve? r e.scope line column = some label → s'.symbols.resolve? r e.scope line column = some label

theorem lookUp_eq_some {scope : ScopeId} {r : Reference} {start : Nat} {found : Lookup} :
    s.lookUp? scope token r start = some found ↔
      s.symbols.resolve? r scope token.line (token.column + start) = some found.label ∧
        (s.symbols.label found.label).value = some found.value ∧ found.reference = r ∧ found.start = start := by
  unfold lookUp?
  constructor
  · intro h
    obtain ⟨label, hlabel, hvalue⟩ := Option.bind_eq_some_iff.mp h
    obtain ⟨value, hknown, rfl⟩ := Option.map_eq_some_iff.mp hvalue
    exact ⟨hlabel, hknown, rfl, rfl⟩
  · rintro ⟨hlabel, hvalue, rfl, rfl⟩
    rw [hlabel, Option.bind_some, hvalue]
    rfl

/-- Labels in front of the lines reached have the addresses of these lines, and every look-up made would
still give the same. -/
structure Settled (s : Assembly) : Prop where
  entered : ∀ id label, .entered id (some label) ∈ s.journal → (s.line id).labelId = some label ∧
      (s.symbols.label label).value = some (.ofWord (s.line id).org)
  read : ∀ e, .evaluated e ∈ s.journal → ∀ found ∈ e.lookups,
    s.lookUp? e.scope e.token found.reference found.start = some found

theorem Settled.step (h : s.Settled) (hkeeps : KeepsReading s s')
    (hline : ∀ id label, (s.line id).labelId = some label →
      (s'.line id).labelId = some label ∧ (s'.line id).org = (s.line id).org)
    (hentered : ∀ id label, .entered id (some label) ∈ s'.journal → .entered id (some label) ∈ s.journal)
    (hevaluated : ∀ e, .evaluated e ∈ s'.journal → .evaluated e ∈ s.journal ∨
      ∀ found ∈ e.lookups, s'.lookUp? e.scope e.token found.reference found.start = some found) :
    s'.Settled where
  entered id label he := by
    obtain ⟨hid, hvalue⟩ := h.entered id label (hentered id label he)
    obtain ⟨hid', horg⟩ := hline id label hid
    exact ⟨hid', horg ▸ hkeeps.value label _ hvalue⟩
  read e he found hfound := by
    rcases hevaluated e he with hold | hnew
    · obtain ⟨hresolve, hvalue, -, -⟩ := lookUp_eq_some.mp (h.read e hold found hfound)
      exact lookUp_eq_some.mpr ⟨hkeeps.resolve e hold _ _ _ _ hresolve, hkeeps.value _ _ hvalue, rfl, rfl⟩
    · exact hnew found hfound

theorem KeepsReading.of_symbols (h : s'.symbols = s.symbols) : KeepsReading s s' := by
  refine ⟨fun label v hv => ?_, fun e _ r line column label hfound => ?_⟩
  · rw [h]
    exact hv
  · rw [h]
    exact hfound

theorem KeepsReading.of_scopes (hscopes : s'.symbols.scopes = s.symbols.scopes)
    (hvalue : KeepsValues s.symbols s'.symbols) : KeepsReading s s' := by
  refine ⟨hvalue, fun e _ r line column label hfound => ?_⟩
  rw [SymbolTable.resolve_congr hscopes]
  exact hfound

theorem Settled.symbolStep (h : s.Settled) (hkeeps : KeepsReading s s') (hlines : s'.lines = s.lines)
    (hjournal : s'.journal = s.journal) : s'.Settled := by
  refine h.step hkeeps (fun id label hid => ?_) (fun id label he => hjournal ▸ he) fun e he => .inl (hjournal ▸ he)
  unfold line at hid ⊢
  rw [hlines]
  exact ⟨hid, rfl⟩

theorem Settled.modifyLine (h : s.Settled) (id : LineId) {f : Line → Line}
    (hf : ∀ label, (s.line id).labelId = some label →
      (f (s.line id)).labelId = some label ∧ (f (s.line id)).org = (s.line id).org) :
    (s.modifyLine id f).Settled := by
  refine h.step (.of_symbols rfl) (fun j label hj => ?_) (fun _ _ he => he) fun _ he => .inl he
  rw [line_modifyLine]
  split
  · rename_i heq
    obtain ⟨rfl, -⟩ := heq
    exact hf label hj
  · exact ⟨hj, rfl⟩

theorem calm_of_setLabelValue (hcalm : (s.setLabelValue label value).Calm) : s.Calm := by
  have hsettled := unsettled_of_setLabelValue hcalm.settled
  obtain ⟨progress, heq⟩ := setLabelValue_eq s label value
  rw [heq] at hcalm
  exact ⟨hcalm.final, hcalm.plain, hcalm.passed, hsettled⟩

/-- In a calm pass a label that has a value does not get another one. -/
theorem setValue_of_calm (hs : s.Sound) {v : Value}
    (hcalm : (s.setLabelValue label value).Calm) (hnone : value = none → s.pass.isFinal = true → s.Failed)
    (hv : (s.symbols.label label).value = some v) :
    (s.setLabelValue label value).symbols = s.symbols ∧ ((some v : Option Value) == value) = true := by
  have hbefore := calm_of_setLabelValue hcalm
  have hsome : ∃ w, value = some w :=
    Option.ne_none_iff_exists'.mp fun heq => hbefore.passed (hnone heq hbefore.final)
  obtain ⟨w, rfl⟩ := hsome
  have hkind : (s.symbols.label label).kind ≠ .variable := fun heq => hs.assigned label heq hbefore.plain
  by_cases hsame : ((some v : Option Value) == some w) = true
  · refine ⟨?_, hsame⟩
    obtain ⟨progress, heq⟩ := setLabelValue_eq s label (some w)
    rw [heq]
    simp only [SymbolTable.setValue, hv, hsame, if_true]
  · -- another value would leave the label unsettled
    exfalso
    have hunsettled := hcalm.settled
    unfold setLabelValue at hunsettled
    simp [SymbolTable.setValue, hv, hsame, hkind, hbefore.final, hbefore.settled] at hunsettled

theorem keepsValues_setLabelValue (hs : s.Sound) (hcalm : (s.setLabelValue label value).Calm)
    (hnone : value = none → s.pass.isFinal = true → s.Failed) :
    KeepsValues s.symbols (s.setLabelValue label value).symbols := by
  intro other v hv
  by_cases heq : other = label
  · subst heq
    rw [(setValue_of_calm hs hcalm hnone hv).1]
    exact hv
  obtain ⟨progress, hset⟩ := setLabelValue_eq s label value
  rw [hset]
  simp only [SymbolTable.setValue]
  split
  · exact hv
  · rw [SymbolTable.label_modifyLabel, if_neg fun h => heq h.1]
    exact hv

theorem scopes_setLabelValue (s : Assembly) (label : LabelId) (value : Option Value) :
    (s.setLabelValue label value).symbols.scopes = s.symbols.scopes := by
  obtain ⟨progress, hset⟩ := setLabelValue_eq s label value
  rw [hset]
  unfold SymbolTable.setValue
  split <;> rfl

theorem keepsReading_setLabelValue (hs : s.Sound) (hcalm : (s.setLabelValue label value).Calm)
    (hnone : value = none → s.pass.isFinal = true → s.Failed) :
    KeepsReading s (s.setLabelValue label value) :=
  .of_scopes (scopes_setLabelValue s label value) (keepsValues_setLabelValue hs hcalm hnone)

/-! ## Steps -/

theorem Change.settled (h : Change may s s') (hs : s.Sound) (hcalm : s'.Calm) (hset : s.Settled) : s'.Settled := by
  have hbefore := (Step.change h).calm hs hcalm
  cases h with
  | around hlines hsymbols _ _ _ hjournal => exact hset.symbolStep (.of_symbols hsymbols) hlines hjournal
  | report d => exact hset.symbolStep (.of_symbols rfl) rfl rfl
  | mark id state =>
    refine hset.modifyLine id fun label hid => ⟨?_, Line.org_mark _ _⟩
    rw [Line.labelId_mark]
    exact hid
  | modify id f _ href =>
    refine hset.modifyLine id fun label hid => ⟨?_, href.org⟩
    rw [href.labelId]
    exact hid
  | name id label _ hnone =>
    refine hset.modifyLine id fun other hid => ?_
    rw [hnone] at hid
    cases hid
  | define id hcreate hroom =>
    refine hset.symbolStep ⟨fun label v hv => ?_, fun e he r line column label hfound => ?_⟩ rfl rfl
    · exact (SymbolTable.value_createLabel hs.freeLabels hcreate label).trans hv
    · exact SymbolTable.resolve_createLabel hs.freeLabels hs.outwards hcreate (hroom hbefore.plain e he) hfound
  | assign label value hnone =>
    exact hset.symbolStep (keepsReading_setLabelValue hs hcalm hnone) (lines_setLabelValue s label value)
      (journal_setLabelValue s label value)
  | document label doc =>
    refine hset.symbolStep (.of_scopes rfl fun other v hv => ?_) rfl rfl
    rw [(keeps_setDoc s label doc).value]
    exact hv
  | register symbols hlabels hscopes =>
    refine hset.symbolStep (.of_scopes hscopes fun other v hv => ?_) rfl rfl
    unfold SymbolTable.label at hv ⊢
    rw [hlabels]
    exact hv
  | addScope kind parent source =>
    rw [SymbolTable.addScope_of_free hs.freeScopes]
    refine hset.symbolStep ⟨fun label v hv => hv, fun e he r line column label hfound => ?_⟩ rfl rfl
    exact SymbolTable.resolve_push hs.outwards (hs.evaluated e he) hfound
  | push l =>
    refine hset.step (.of_symbols rfl) (fun id label hid => ?_) (fun _ _ he => he) fun _ he => .inl he
    rw [line_push hs.free]
    split
    · rename_i heq
      rw [line_of_size_le (Nat.le_of_eq heq.symm)] at hid
      cases hid
    · exact ⟨hid, rfl⟩

/-! ## Lines that are reached -/

theorem labelId_beginLine (s : Assembly) (id j : LineId) :
    ((s.beginLine id).line j).labelId = (s.line j).labelId := by
  unfold beginLine
  simp only
  rw [line_modifyLine]
  split <;> rfl

theorem org_beginLine_of_ne {j : LineId} (h : j ≠ id) : ((s.beginLine id).line j).org = (s.line j).org := by
  unfold beginLine
  simp only
  rw [line_modifyLine, if_neg fun hj => h hj.1]

theorem org_beginLine (h : (s.line id).labelId = some label) : ((s.beginLine id).line id).org = s.cursor.org := by
  have hid : id < s.lines.size := by
    by_contra hge
    rw [line_of_size_le (Nat.le_of_not_lt hge)] at h
    cases h
  unfold beginLine
  simp only
  rw [line_modifyLine, if_pos ⟨rfl, hid⟩]

theorem enterLine_of_none (h : (s.line id).labelId = none) :
    s.enterLine id = (s.beginLine id).note (.entered id none) := by
  have hlabel := (labelId_beginLine s id id).trans h
  have hline : ∀ event, (((s.beginLine id).note event).line id).labelId = none := fun _ => hlabel
  unfold enterLine
  simp only [hlabel, hline]

theorem enterLine_of_some (h : (s.line id).labelId = some label) :
    s.enterLine id = ((s.beginLine id).note (.entered id (some label))).setLabelValue label
      (some (.ofWord s.cursor.org)) := by
  have hlabel := (labelId_beginLine s id id).trans h
  have hline : ∀ event, (((s.beginLine id).note event).line id).labelId = some label := fun _ => hlabel
  unfold enterLine
  simp only [hlabel, hline]
  rfl

theorem Settled.enterLine (hset : s.Settled) (hs : s.Sound) (hcalm : (s.enterLine id).Calm) :
    (s.enterLine id).Settled := by
  have hentered : ((s.beginLine id).note (.entered id (s.line id).labelId)).Sound :=
    (hs.beginLine id).note nofun nofun
  cases hlabel : (s.line id).labelId with
  | none =>
    rw [enterLine_of_none hlabel]
    refine hset.step (.of_symbols rfl) (fun j label hj => ?_) (fun j label he => ?_) fun e he => ?_
    · have hne : j ≠ id := by
        rintro rfl
        rw [hlabel] at hj
        cases hj
      exact ⟨(labelId_beginLine s id j).trans hj, org_beginLine_of_ne hne⟩
    · exact (List.mem_cons.mp he).resolve_left nofun
    · exact .inl ((List.mem_cons.mp he).resolve_left nofun)
  | some label =>
    rw [enterLine_of_some hlabel] at hcalm ⊢
    rw [hlabel] at hentered
    have hvalue := value_setLabelValue (s := (s.beginLine id).note (.entered id (some label))) s.cursor.org
      (hs.named hlabel).1
    have hkeeps := keepsReading_setLabelValue hentered hcalm nofun
    have hlines : ∀ j, (((s.beginLine id).note (.entered id (some label))).setLabelValue label
        (some (.ofWord s.cursor.org))).line j = (s.beginLine id).line j := by
      intro j
      unfold line
      rw [lines_setLabelValue]
      rfl
    refine ⟨fun j other he => ?_, fun e he found hfound => ?_⟩
    · rw [journal_setLabelValue] at he
      rw [hlines, labelId_beginLine]
      rcases List.mem_cons.mp he with heq | he
      · cases heq
        exact ⟨hlabel, by rw [org_beginLine hlabel, hvalue]⟩
      obtain ⟨hj, hold⟩ := hset.entered j other he
      refine ⟨hj, ?_⟩
      -- a line reached twice has one label, whose value follows the later address
      by_cases hne : j = id
      · subst hne
        rw [hlabel] at hj
        cases hj
        rw [org_beginLine hlabel, hvalue]
      · rw [org_beginLine_of_ne hne]
        exact hkeeps.value other _ hold
    · rw [journal_setLabelValue] at he
      have hold : .evaluated e ∈ s.journal := (List.mem_cons.mp he).resolve_left nofun
      obtain ⟨hresolve, hread, -, -⟩ := lookUp_eq_some.mp (hset.read e hold found hfound)
      exact lookUp_eq_some.mpr ⟨hkeeps.resolve e he _ _ _ _ hresolve, hkeeps.value _ _ hread, rfl, rfl⟩

/-- The look-ups of an expression are made at once. -/
theorem Settled.noteEvaluated (hset : s.Settled) {e : Evaluation}
    (h : ∀ found ∈ e.lookups, s.lookUp? e.scope e.token found.reference found.start = some found) :
    (s.note (.evaluated e)).Settled := by
  refine hset.step (.of_symbols rfl) (fun _ _ hid => ⟨hid, rfl⟩) (fun _ _ he => ?_) fun e' he => ?_
  · exact (List.mem_cons.mp he).resolve_left nofun
  · rcases List.mem_cons.mp he with heq | he
    · cases heq
      exact .inr h
    · exact .inl he

theorem Settled.fail (hset : s.Settled) (id : LineId) (span : Span) (message : String) :
    (s.fail id span message).Settled := by
  have hreport : (s.report { severity := .error, message, primary := span }).Settled :=
    hset.symbolStep (.of_symbols rfl) rfl rfl
  refine hreport.modifyLine id fun label hid => ⟨?_, Line.org_mark _ _⟩
  rw [Line.labelId_mark]
  exact hid

theorem Settled.evaluate (hset : s.Settled) (id : LineId) (e : Expression) (token : Token) :
    (s.evaluate id e token).2.Settled := by
  have hnote : ∀ outcome, (s.note (.evaluated
      { expression := e, token, scope := (s.line id).scope, org := (s.line id).org,
        lookups := e.references.filterMap fun r => s.lookUp? (s.line id).scope token r.1 r.2.1,
        outcome })).Settled := by
    intro outcome
    refine hset.noteEvaluated fun found hfound => ?_
    obtain ⟨r, -, hlook⟩ := List.mem_filterMap.mp hfound
    obtain ⟨-, -, hreference, hstart⟩ := lookUp_eq_some.mp hlook
    rw [hreference, hstart]
    exact hlook
  unfold Assembly.evaluate
  simp only
  split
  · exact hnote _
  · exact (hnote _).symbolStep (.of_symbols rfl) rfl rfl
  · unfold valueError
    split
    · exact (hnote _).fail id _ _
    · exact (hnote _).symbolStep (.of_symbols rfl) rfl rfl

theorem Settled.emit (hset : s.Settled) (id : LineId) (cells : List Cell) : (s.emit id cells).Settled := by
  have hwritten : ∀ {u : Assembly}, u.Settled → ({ u.note (.emitted id cells) with
      cursor := u.cursor.advance cells.length }.modifyLine id fun l => { l with bytes := cells }).Settled := by
    intro u hu
    have hnote : { u.note (.emitted id cells) with cursor := u.cursor.advance cells.length }.Settled := by
      refine hu.step (.of_symbols rfl) (fun _ _ hid => ⟨hid, rfl⟩) (fun _ _ he => ?_) fun _ he => ?_
      · exact (List.mem_cons.mp he).resolve_left nofun
      · exact .inl ((List.mem_cons.mp he).resolve_left nofun)
    exact hnote.modifyLine id fun label hid => ⟨hid, rfl⟩
  unfold Assembly.emit
  cases s.image.write s.cursor.base cells with
  | ok image =>
    have himage : { s with image }.Settled := hset.symbolStep (.of_symbols rfl) rfl rfl
    exact hwritten himage
  | error err => exact hwritten (hset.fail id _ _)

theorem Step.settled (h : Step may s s') (hs : s.Sound) (hcalm : s'.Calm) (hset : s.Settled) : s'.Settled := by
  cases h with
  | change h => exact h.settled hs hcalm hset
  | hide label hplain => exact absurd hcalm.plain hplain
  | unhide h hplain => exact absurd hcalm.plain hplain
  | begin id hown hplain =>
    exact absurd (Steps.plain (.single (.begin id hown hplain : Step may s _)) hs hcalm.plain) hplain
  | enter id => exact hset.enterLine hs hcalm
  | count id =>
    refine hset.step (.of_symbols rfl) (fun _ _ hid => ⟨hid, rfl⟩) (fun _ _ he => ?_) fun _ he => ?_
    · exact (List.mem_cons.mp he).resolve_left nofun
    · exact .inl ((List.mem_cons.mp he).resolve_left nofun)
  | number =>
    exact hset.symbolStep (keepsReading_setLabelValue hs hcalm nofun) (lines_setLabelValue _ _ _)
      (journal_setLabelValue _ _ _)
  | move => exact hset.symbolStep (.of_symbols rfl) rfl rfl
  | evaluate id e token => exact hset.evaluate id e token
  | emit id _ cells => exact hset.emit id cells

/-- **A calm pass is settled all along.** -/
theorem Steps.settled (h : Steps may s s') (hs : s.Sound) (hset : s.Settled) (hcalm : s'.Calm) : s'.Settled := by
  induction h with
  | refl => exact hset
  | tail hrun hstep ih =>
    have hsound := Steps.sound hrun hs
    exact hstep.settled hsound hcalm (ih (hstep.calm hsound hcalm))

/-! ## What was evaluated -/

theorem resolver_of_ne_here {scope : ScopeId} {org : Int64} {r : Reference} {start stop : Nat} (h : r ≠ .here) :
    s.resolver scope token org r start stop = (s.lookUp? scope token r start).map fun found => found.value := by
  cases r with
  | here => exact absurd rfl h
  | _ => rfl

theorem grounded_evaluation {e : Expression} {v : Value}
    (h : (s.evaluation id e token).outcome = .ok (.resolved v)) : (s.evaluation id e token).Grounded := by
  have hlookup : ∀ r ∈ e.references, r.1 ≠ .here →
      ∃ found, s.lookUp? (s.line id).scope token r.1 r.2.1 = some found := by
    intro r hr hne
    obtain ⟨w, hw⟩ := Expression.exists_of_evaluate_resolved h hr
    rw [resolver_of_ne_here hne] at hw
    obtain ⟨found, hfound, -⟩ := Option.map_eq_some_iff.mp hw
    exact ⟨found, hfound⟩
  refine ⟨⟨v, h⟩, fun r hr hne => ?_, fun resolve mode hhere hfound => ?_⟩
  · obtain ⟨found, hlook⟩ := hlookup r hr hne
    obtain ⟨-, -, hreference, hstart⟩ := lookUp_eq_some.mp hlook
    exact ⟨found, List.mem_filterMap.mpr ⟨r, hr, hlook⟩, hreference, hstart⟩
  rw [h]
  refine Expression.evaluate_eq_of_resolved h fun r hr w hw => ?_
  by_cases hne : r.1 = .here
  · rw [hne] at hw ⊢
    rw [hhere]
    exact hw
  · obtain ⟨found, hlook⟩ := hlookup r hr hne
    obtain ⟨-, -, hreference, hstart⟩ := lookUp_eq_some.mp hlook
    have hsame := hfound found (List.mem_filterMap.mpr ⟨r, hr, hlook⟩) r.2.2
    rw [resolver_of_ne_here hne, hlook] at hw
    rw [hreference, hstart] at hsame
    exact hsame.trans hw

theorem grounded_or_failed (hfinal : s.pass.isFinal = true) (id : LineId) (e : Expression) (token : Token) :
    (s.evaluation id e token).Grounded ∨ (s.evaluate id e token).2.Failed := by
  cases hout : (s.evaluation id e token).outcome with
  | ok outcome =>
    cases outcome with
    | resolved v => exact .inl (grounded_evaluation hout)
    | pending label start stop =>
      have hmode : s.pass.mode = .final := if_pos hfinal
      unfold evaluation at hout
      simp only [hmode] at hout
      exact absurd hout (Expression.evaluate_final_ne_pending e)
  | error err =>
    right
    unfold evaluate
    have hout' : e.evaluate (s.resolver (s.line id).scope token (s.line id).org) s.pass.mode = .error err := hout
    simp only [hout']
    exact failed_valueError_of_final (s := s.note _) hfinal id _ _

/-- Every expression evaluated in a final pass gives a value that rests on what was looked up, or there is
an error. -/
def Answered (s : Assembly) : Prop := ∀ e, .evaluated e ∈ s.journal → e.Grounded ∨ s.Failed

theorem Step.answered (h : Step may s s') (hfinal : s.pass.isFinal = true) (hs : s.Answered) : s'.Answered := by
  -- no other step evaluates, and an error stays
  have hold : ∀ e, .evaluated e ∈ s.journal → e.Grounded ∨ s'.Failed :=
    fun e he => (hs e he).imp_right h.failed
  intro e he
  cases h with
  | change h => exact hold e (journal_change h ▸ he)
  | hide | unhide | begin | move => exact hold e he
  | count => exact hold e ((List.mem_cons.mp he).resolve_left nofun)
  | number => exact hold e (journal_setLabelValue _ _ _ ▸ he)
  | enter id =>
    unfold enterLine at he
    simp only at he
    split at he
    · rw [journal_setLabelValue] at he
      exact hold e ((List.mem_cons.mp he).resolve_left nofun)
    · exact hold e ((List.mem_cons.mp he).resolve_left nofun)
  | evaluate id expression token =>
    rw [journal_evaluate] at he
    rcases List.mem_cons.mp he with heq | he
    · cases heq
      exact grounded_or_failed hfinal id expression token
    · exact hold e he
  | emit id _ cells =>
    rw [journal_emit] at he
    exact hold e ((List.mem_cons.mp he).resolve_left nofun)

theorem Steps.answered (h : Steps may s s') (hfinal : s.pass.isFinal = true) (hs : s.Answered) : s'.Answered := by
  induction h with
  | refl => exact hs
  | tail hrun hstep ih => exact hstep.answered (Steps.pass hrun ▸ hfinal) ih

/-! ## Work that settles -/

/-- Work that ends in a calm final pass without the warning is settled, and so is every value in it. -/
theorem Concluded.settled (h : Concluded s) (hplain : s.Plain) (hpassed : ¬ s.Failed)
    (hwarned : ∀ d ∈ s.diagnostics, ∀ n : Nat, d.message ≠ s!"label values did not settle within {n} passes") :
    s.pass.isFinal = true ∧ s.Settled ∧ ∀ e, .evaluated e ∈ s.journal → e.Grounded := by
  obtain ⟨t, index, u, _, hprepared, hvisits, rfl⟩ := h
  have hsteps := hvisits.steps
  have hfinal : (t.beginPass index true).pass.isFinal = true := rfl
  cases hunsettled : u.progress.unsettled with
  | some span =>
    simp only [hunsettled] at hwarned
    exfalso
    exact hwarned _ Array.mem_push_self (index + 1) rfl
  | none =>
    simp only [hunsettled] at hplain hpassed ⊢
    have hcalm : u.Calm := ⟨hsteps.pass ▸ hfinal, hplain, hpassed, hunsettled⟩
    -- nothing has been done at the beginning of the pass
    have hstart : (t.beginPass index true).Settled := ⟨nofun, nofun⟩
    refine ⟨hcalm.final, hsteps.settled (hprepared.beginPass index true).sound hstart hcalm, ?_⟩
    intro e he
    exact (hsteps.answered hfinal nofun e he).resolve_right hpassed

/-- **What was read is what stands at the end.** If no line is an assignment or a conditional, and the work
is not told to stop, reports no error and does not warn that labels have not settled, then a label in front
of a line that the final pass reached has the address of the line, and every reference that an expression
resolved in that pass gave the value that its label has now. So the labels at the end give every expression
the value it was used with. -/
theorem fixpoint_of_no_warning (settings : Settings) (files : Files) (inputs : List (Path × String))
    (hplain : (compileAll settings files inputs).Plain)
    (hrunning : (compileAll settings files inputs).stopped = false)
    (hpassed : (compileAll settings files inputs).diagnostics.hasErrors = false)
    (hwarned : ∀ d ∈ (compileAll settings files inputs).diagnostics, ∀ n : Nat,
      d.message ≠ s!"label values did not settle within {n} passes") :
    let s := compileAll settings files inputs
    s.pass.isFinal = true ∧ (∀ id label, .entered id (some label) ∈ s.journal → (s.line id).labelId = some label ∧
          (s.symbols.label label).value = some (.ofWord (s.line id).org)) ∧
      ∀ e, .evaluated e ∈ s.journal → (∀ found ∈ e.lookups, (s.symbols.label found.label).value = some found.value) ∧
          (∀ r ∈ e.expression.references, r.1 ≠ .here →
            ∃ found ∈ e.lookups, found.reference = r.1 ∧ found.start = r.2.1) ∧
          e.expression.evaluate (s.resolver e.scope e.token e.org) .final = e.outcome := by
  have hconcluded := (concluded_compileAll settings files inputs).resolve_left (by rw [hrunning]; nofun)
  generalize compileAll settings files inputs = s at hplain hpassed hwarned hconcluded ⊢
  have hnot : ¬ s.Failed := by
    unfold Failed
    rw [hpassed]
    nofun
  obtain ⟨hfinal, hsettled, hgrounded⟩ := hconcluded.settled hplain hnot hwarned
  refine ⟨hfinal, hsettled.entered, fun e he => ?_⟩
  have hread : ∀ found ∈ e.lookups, (s.symbols.label found.label).value = some found.value :=
    fun found hfound => (lookUp_eq_some.mp (hsettled.read e he found hfound)).2.1
  refine ⟨hread, (hgrounded e he).complete, (hgrounded e he).rests _ _ (fun _ _ => rfl) ?_⟩
  intro found hfound stop
  have hlook := hsettled.read e he found hfound
  cases hreference : found.reference with
  | here =>
    rw [hreference] at hlook
    cases hlook
  | _ =>
    rw [hreference] at hlook
    simp only [resolver, hlook, Option.map_some]

/-- Work on a line that refers to a label further down. -/
def forwardWork : Assembly :=
  compileAll {} (fun _ => .missing) [("main.asm", ".DB later + 1\nlater: .DB 7\n")]

set_option maxRecDepth 100000 in
theorem fixpoint_of_forwardWork :
    (forwardWork.Plain ∧ forwardWork.stopped = false ∧ forwardWork.diagnostics.hasErrors = false ∧
      forwardWork.diagnostics.size = 0 ∧ forwardWork.image.toSigned = [2, 7]) ∧
      forwardWork.pass.isFinal = true ∧
      (∀ id label, .entered id (some label) ∈ forwardWork.journal → (forwardWork.line id).labelId = some label ∧
          (forwardWork.symbols.label label).value = some (.ofWord (forwardWork.line id).org)) ∧
      ∀ e, .evaluated e ∈ forwardWork.journal →
        (∀ found ∈ e.lookups, (forwardWork.symbols.label found.label).value = some found.value) ∧
          (∀ r ∈ e.expression.references, r.1 ≠ .here →
            ∃ found ∈ e.lookups, found.reference = r.1 ∧ found.start = r.2.1) ∧
          e.expression.evaluate (forwardWork.resolver e.scope e.token e.org) .final = e.outcome := by
  have hclean : forwardWork.Plain ∧ forwardWork.stopped = false ∧
      forwardWork.diagnostics.hasErrors = false ∧ forwardWork.diagnostics.size = 0 ∧
        forwardWork.image.toSigned = [2, 7] := by
    unfold Plain
    decide +kernel
  refine ⟨hclean, fixpoint_of_no_warning _ _ _ hclean.1 hclean.2.1 hclean.2.2.1 fun d hd => ?_⟩
  have hempty : forwardWork.diagnostics = #[] := Array.eq_empty_of_size_eq_zero hclean.2.2.2.1
  have hnone : d ∈ forwardWork.diagnostics := hd
  rw [hempty] at hnone
  exact absurd hnone (Array.not_mem_empty d)

end Assembly

end CrossAssembler
