import CrossAssembler.Proofs.Assembly.Analysis
import CrossAssembler.Proofs.Expression.Running

/-!
# Writing output is made of steps

Whatever a line writes, its values are evaluated one after another and its bytes written at the end. A
byte is left open only where a value is not known, and that is an error in the final pass.

* `Reported` — something missing in the final pass has been reported.
* `evaluate_spec`, `dataCells_spec` — a value that is not known has been reported.

Principal results: `delivers_compileInstruction`, `delivers_compileData`, `delivers_compileBinary` — lines of
each kind write their bytes at the end, if they write any.
-/

namespace CrossAssembler.Assembly

variable {s s' : Assembly} {may : Permit}
variable {s'' : Assembly} {id : LineId} {part : Line.CommandPart}

/-! ## Steps -/

theorem Steps.of_changes (h : Changes may s s') : Steps may s s' := by
  induction h with
  | refl => exact .refl
  | tail _ hstep ih => exact ih.tail (.change hstep)

theorem Change.pass (h : Change may s s') : s'.pass = s.pass := by
  cases h with
  | around _ _ _ h => exact h
  | assign label value =>
    obtain ⟨progress, heq⟩ := setLabelValue_eq s label value
    rw [heq]
  | report | mark | modify | name | define | document | register | addScope | push => rfl

/-- What a step keeps that only writes: the pass, whether the work goes on, the files, and what lines
are. -/
structure Writes (s s' : Assembly) : Prop where
  pass : s'.pass = s.pass
  stopped : s'.stopped = s.stopped
  units : s'.units = s.units
  size : s'.lines.size = s.lines.size
  place : ∀ id, (s'.line id).place = (s.line id).place
  kinds : SameKinds s s'
  error : ∀ id, (s.line id).state = .error → (s'.line id).state = .error

theorem Writes.scope (h : Writes s s') (id : LineId) : (s'.line id).scope = (s.line id).scope :=
  congrArg Prod.fst (h.place id)

theorem Writes.trans (h : Writes s s') (h' : Writes s' s'') : Writes s s'' :=
  ⟨h'.pass.trans h.pass, h'.stopped.trans h.stopped, h'.units.trans h.units, h'.size.trans h.size,
    fun id => (h'.place id).trans (h.place id), h.kinds.trans h'.kinds, fun id => h'.error id ∘ h.error id⟩

theorem Writes.of_lines (hlines : s'.lines = s.lines) (hpass : s'.pass = s.pass)
    (hstopped : s'.stopped = s.stopped) (hunits : s'.units = s.units) : Writes s s' := by
  refine ⟨hpass, hstopped, hunits, congrArg Arena.size hlines, fun id => ?_, sameKinds_of_lines hlines, fun id h => ?_⟩
  · unfold line
    rw [hlines]
  · unfold line at h ⊢
    rw [hlines]
    exact h

theorem writes_setLabelValue (s : Assembly) (label : LabelId) (value : Option Value) :
    Writes s (s.setLabelValue label value) := by
  obtain ⟨progress, heq⟩ := setLabelValue_eq s label value
  rw [heq]
  exact .of_lines rfl rfl rfl rfl

theorem writes_modifyLine (s : Assembly) (id : LineId) {f : Line → Line}
    (hf : ∀ l, (f l).place = l.place ∧ (f l).kind = l.kind ∧ (l.state = .error → (f l).state = .error)) :
    Writes s (s.modifyLine id f) := by
  refine ⟨rfl, rfl, rfl, size_modifyLine s id f, fun j => ?_, fun j => ?_, fun j h => ?_⟩
  · rw [line_modifyLine]
    split
    · exact (hf _).1
    · rfl
  · rw [line_modifyLine]
    split
    · exact (hf _).2.1
    · rfl
  · rw [line_modifyLine]
    split
    · rename_i hj
      exact (hf _).2.2 (hj.1 ▸ h)
    · exact h

theorem writes_mark (s : Assembly) (id : LineId) (state : LineState) : Writes s (s.mark id state) :=
  writes_modifyLine s id fun l => ⟨Line.place_mark l state, Line.kind_mark l state, fun h => Line.error_mark h state⟩

theorem writes_fail (s : Assembly) (id : LineId) (span : Span) (message : String) :
    Writes s (s.fail id span message) := by
  have hreport : Writes s (s.report { severity := .error, message, primary := span }) :=
    .of_lines rfl rfl rfl rfl
  exact hreport.trans (writes_mark _ id .error)

theorem writes_valueError (s : Assembly) (id : LineId) (span : Span) (message : String) :
    Writes s (s.valueError id span message) := by
  unfold valueError
  split
  · exact writes_fail s id span message
  · exact .of_lines rfl rfl rfl rfl

theorem writes_enterLine (s : Assembly) (id : LineId) : Writes s (s.enterLine id) := by
  have hbegin : Writes s (s.beginLine id) := writes_modifyLine s id fun _ => ⟨rfl, rfl, fun h => h⟩
  have hentered : Writes s ((s.beginLine id).note (.entered id ((s.beginLine id).line id).labelId)) :=
    hbegin.trans (.of_lines rfl rfl rfl rfl)
  unfold enterLine
  simp only
  split
  · exact hentered.trans (writes_setLabelValue _ _ _)
  · exact hentered

theorem writes_evaluate (s : Assembly) (id : LineId) (e : Expression) (token : Token) :
    Writes s (s.evaluate id e token).2 := by
  have hnote : ∀ event, Writes s (s.note event) := fun _ => .of_lines rfl rfl rfl rfl
  unfold evaluate
  simp only
  split
  · exact hnote _
  · exact .of_lines rfl rfl rfl rfl
  · exact (hnote _).trans (writes_valueError _ id _ _)

theorem writes_emit (s : Assembly) (id : LineId) (cells : List Cell) : Writes s (s.emit id cells) := by
  unfold emit
  simp only
  refine Writes.trans ?_ (writes_modifyLine _ id fun _ => ⟨rfl, rfl, fun h => h⟩)
  split
  · exact .of_lines rfl rfl rfl rfl
  · exact (writes_fail s id _ _).trans (.of_lines rfl rfl rfl rfl)

theorem Step.pass (h : Step may s s') : s'.pass = s.pass := by
  cases h with
  | change h => exact h.pass
  | hide | unhide | begin | move | count => rfl
  | enter id => exact (writes_enterLine s id).pass
  | number _ _ label => exact (writes_setLabelValue s label _).pass
  | evaluate id e token => exact (writes_evaluate s id e token).pass
  | emit id _ cells => exact (writes_emit s id cells).pass

theorem Steps.pass (h : Steps may s s') : s'.pass = s.pass := by
  induction h with
  | refl => rfl
  | tail _ hstep ih => exact hstep.pass.trans ih

theorem Step.size_le (h : Step may s s') : s.lines.size ≤ s'.lines.size := by
  cases h with
  | change h => exact h.size_le
  | hide | unhide | move | count => exact Nat.le_refl _
  | begin id => exact Nat.le_of_eq (size_modifyLine s id _).symm
  | enter id => exact Nat.le_of_eq (writes_enterLine s id).size.symm
  | number _ _ label => exact Nat.le_of_eq (writes_setLabelValue s label _).size.symm
  | evaluate id e token => exact Nat.le_of_eq (writes_evaluate s id e token).size.symm
  | emit id _ cells => exact Nat.le_of_eq (writes_emit s id cells).size.symm

theorem Steps.size_le (h : Steps may s s') : s.lines.size ≤ s'.lines.size := by
  induction h with
  | refl => exact Nat.le_refl _
  | tail _ hstep ih => exact Nat.le_trans ih hstep.size_le

/-! ## Values -/

/-- Steps that change no line, after which something that is missing in the final pass has been
reported. -/
structure Supplies (s s' : Assembly) (missing : Prop) : Prop where
  steps : Steps .still s s'
  reported : missing → s'.pass.isFinal = true → s'.Failed

theorem Supplies.then {missing : Prop} (h : Supplies s s' missing)
    (h' : Steps .still s' s'') : Supplies s s'' missing :=
  ⟨h.steps.trans h', fun hm hfinal => h'.failed (h.reported hm (h'.pass ▸ hfinal))⟩

theorem Supplies.after {missing : Prop} (h : Supplies s' s'' missing)
    (h' : Steps .still s s') : Supplies s s'' missing := ⟨h'.trans h.steps, h.reported⟩

theorem Supplies.imp {missing missing' : Prop} (h : Supplies s s' missing)
    (himp : missing' → missing) : Supplies s s' missing' := ⟨h.steps, fun hm => h.reported (himp hm)⟩

theorem Supplies.of_failed {missing : Prop} (h : Steps .still s s') (hfailed : s.Failed) :
    Supplies s s' missing := ⟨h, fun _ _ => h.failed hfailed⟩

theorem steps_fail (s : Assembly) (id : LineId) (span : Span) (message : String) :
    Steps .still s (s.fail id span message) := .of_changes (changes_fail s id span message)

theorem failed_valueError_of_final (hfinal : s.pass.isFinal = true) (id : LineId) (span : Span)
    (message : String) : (s.valueError id span message).Failed := by
  unfold valueError
  rw [if_pos hfinal]
  exact failed_fail s id span message

/-- An error that may pass is reported in the final pass. -/
theorem supplies_valueError {missing : Prop} (s : Assembly) (id : LineId) (span : Span) (message : String) :
    Supplies s (s.valueError id span message) missing := by
  refine ⟨?_, fun _ hfinal => ?_⟩
  · unfold valueError
    split
    · exact steps_fail s id span message
    · exact .single (.change (.around rfl rfl rfl rfl rfl rfl rfl rfl rfl rfl fun h => h))
  · rw [(writes_valueError s id span message).pass] at hfinal
    exact failed_valueError_of_final hfinal id span message

theorem supplies_evaluate (hid : id < s.lines.size) (e : Expression) (token : Token) :
    Supplies s (s.evaluate id e token).2 ((s.evaluate id e token).1.value? = none) := by
  refine ⟨.single (.evaluate id e token hid), fun hnone hfinal => ?_⟩
  rw [(writes_evaluate s id e token).pass] at hfinal
  unfold evaluate at hnone ⊢
  simp only at hnone ⊢
  have hmode : s.pass.mode = .final := by
    unfold Pass.mode
    rw [if_pos hfinal]
  rw [hmode] at hnone ⊢
  split
  · rename_i value heq
    rw [heq] at hnone
    cases hnone
  · rename_i label start stop heq
    exact absurd heq (Expression.evaluate_final_ne_pending e)
  · rename_i err heq
    have hnoted : ∀ event, (s.note event).pass.isFinal = true := fun _ => hfinal
    exact failed_valueError_of_final (hnoted _) id _ _

theorem evaluateWord_eq (s : Assembly) (id : LineId) (e : Expression) (token : Token) :
    ((s.evaluateWord id e token).2 = (s.evaluate id e token).2 ∧
      ((s.evaluateWord id e token).1.value? = none → (s.evaluate id e token).1.value? = none)) ∨
    ∃ message, (s.evaluateWord id e token).2 = (s.evaluate id e token).2.fail id token.span message := by
  unfold evaluateWord
  split
  · rename_i value t heq
    rw [heq]
    split
    · exact .inl ⟨rfl, nofun⟩
    · exact .inr ⟨_, rfl⟩
  · rename_i t heq
    rw [heq]
    exact .inl ⟨rfl, fun _ => rfl⟩
  · rename_i t heq
    rw [heq]
    exact .inl ⟨rfl, fun _ => rfl⟩

theorem supplies_evaluateWord (hid : id < s.lines.size) (e : Expression) (token : Token) :
    Supplies s (s.evaluateWord id e token).2 ((s.evaluateWord id e token).1.value? = none) := by
  have hvalue := supplies_evaluate hid e token
  rcases evaluateWord_eq s id e token with ⟨heq, hnone⟩ | ⟨message, heq⟩
  · rw [heq]
    exact hvalue.imp hnone
  · rw [heq]
    exact ⟨hvalue.steps.trans (steps_fail _ id _ _), fun _ _ => failed_fail _ id _ _⟩

theorem writes_evaluateWord (s : Assembly) (id : LineId) (e : Expression) (token : Token) :
    Writes s (s.evaluateWord id e token).2 := by
  have hvalue := writes_evaluate s id e token
  rcases evaluateWord_eq s id e token with ⟨heq, _⟩ | ⟨message, heq⟩
  · rw [heq]
    exact hvalue
  · rw [heq]
    exact hvalue.trans (writes_fail _ id _ _)

theorem steps_argumentWord (hid : id < s.lines.size) (index : Nat) : Steps .still s (s.argumentWord id index).2 := by
  unfold argumentWord
  split
  · exact .refl
  · split
    · exact (supplies_evaluateWord hid _ _).steps
    · exact .refl

theorem supplies_operandWords : ∀ (es : List (Token × Expression)) {s : Assembly}, id < s.lines.size →
      Supplies s (s.operandWords id es).2 (none ∈ (s.operandWords id es).1)
  | [], _, _ => ⟨.refl, nofun⟩
  | (token, e) :: rest, s, hid => by
    have hfirst := supplies_evaluateWord hid e token
    have hrest := supplies_operandWords rest (Nat.lt_of_lt_of_le hid hfirst.steps.size_le)
    refine ⟨hfirst.steps.trans hrest.steps, fun hmem hfinal => ?_⟩
    rcases List.mem_cons.mp hmem with hnone | hmem
    · exact (hfirst.then hrest.steps).reported hnone.symm hfinal
    · exact hrest.reported hmem hfinal

theorem mem_of_allKnown_eq_none : ∀ {words : List (Option Int64)}, allKnown words = none → none ∈ words
  | [], h => by cases h
  | none :: _, _ => List.mem_cons_self
  | some n :: rest, h => by
    unfold allKnown at h
    exact List.mem_cons_of_mem _ (mem_of_allKnown_eq_none (Option.map_eq_none_iff.mp h))

/-! ## Instructions -/

/-- How the work on a line ends: with its bytes written, with another place for output, or with neither. -/
inductive Closes (id : LineId) (s : Assembly) : Assembly → Prop
  | idle : Closes id s s
  | move (cursor : Cursor) : Closes id s { s with cursor }
  | emit (cells : List Cell) (h : none ∈ cells → s.pass.isFinal = true → s.Failed) (lays : s.Lays id cells) :
      Closes id s (s.emit id cells)

/-- Whether steps that write nothing lead from one assembly to another, and the line may write at the end. -/
def Delivers (id : LineId) (s s' : Assembly) : Prop := ∃ t, Steps (.tending (· = id)) s t ∧ Closes id t s'

theorem Delivers.of_still (h : Steps .still s s') : Delivers id s s' :=
  ⟨s', h.of_still, .idle⟩

theorem Steps.serving_of_tending (h : Steps (.tending (· = id)) s s') : Steps (.serving id) s s' := by
  refine h.mono ?_ ?_ ?_ ?_
  · exact fun _ hid => hid
  · exact fun _ hid => hid
  · exact fun _ hid => hid
  · exact fun _ hid => hid.elim

theorem Delivers.steps (h : Delivers id s s') : Steps (.serving id) s s' := by
  obtain ⟨t, hsteps, hcloses⟩ := h
  refine hsteps.serving_of_tending.trans ?_
  cases hcloses with
  | idle => exact .refl
  | move cursor => exact .single (.move id rfl cursor)
  | emit cells h lays => exact .single (.emit id rfl cells h lays)

/-- Whether a line may write anything: it is no data group. -/
def Unbound (s : Assembly) (id : LineId) : Prop := ∀ t, Steps (.tending (· = id)) s t → ∀ cells, t.Lays id cells

theorem delivers_emit {cells : List Cell} (h : Supplies s s' (none ∈ cells)) (hlays : s'.Lays id cells) :
    Delivers id s (s'.emit id cells) := ⟨s', h.steps.of_still, .emit cells h.reported hlays⟩

theorem Unbound.after (h : s.Unbound id) (hrun : Steps (.tending (· = id)) s s') : s'.Unbound id :=
  fun t ht => h t (hrun.trans ht)

theorem Unbound.delivers {cells : List Cell} (h : s.Unbound id) (hcells : Supplies s s' (none ∈ cells)) :
    Delivers id s (s'.emit id cells) := delivers_emit hcells (h _ hcells.steps.of_still _)

theorem none_notMem_map_some (bytes : List UInt8) : none ∉ bytes.map (some : UInt8 → Cell) := by
  intro h
  obtain ⟨_, _, heq⟩ := List.mem_map.mp h
  cases heq

theorem delivers_emit_known {bytes : List UInt8} (h : Steps .still s s') (hlays : s.Unbound id) :
    Delivers id s (s'.emit id (bytes.map some)) :=
  hlays.delivers ⟨h, fun hmem => absurd hmem (none_notMem_map_some bytes)⟩

theorem delivers_compileInstruction (hid : id < s.lines.size) (hlays : s.Unbound id) (part : Line.InstructionPart) :
    Delivers id s (s.compileInstruction id part) := by
  unfold compileInstruction
  split
  · exact .of_still .refl
  rename_i m _
  have hwords := supplies_operandWords m.expressions hid
  simp only
  generalize s.operandWords id m.expressions = words at hwords ⊢
  split
  · exact .of_still (hwords.steps.trans (steps_fail _ id _ _))
  · exact hlays.delivers ((supplies_valueError _ id _ _).after hwords.steps)
  rename_i encoding _
  have hlock : Steps (.tending (· = id)) s (words.2.lockWidth id encoding.width) :=
    hwords.steps.of_still.tail (.change (change_modifyInstruction rfl))
  split
  · rename_i hnone
    exact ⟨_, hlock, .emit _ (fun _ => hwords.reported (mem_of_allKnown_eq_none hnone)) (hlays _ hlock _)⟩
  · split
    · exact ⟨_, hlock, .emit _ (fun hmem => absurd hmem (none_notMem_map_some _)) (hlays _ hlock _)⟩
    · obtain ⟨t, hsteps, hcloses⟩ := (hlays.after hlock).delivers (supplies_valueError _ id _ _)
      exact ⟨t, hlock.trans hsteps, hcloses⟩

theorem steps_assign (hid : id < s.lines.size) {label : LabelId} (hfree : s.Free label)
    (e : Expression) (token : Token) :
    Steps .still s (match s.evaluate id e token with
      | (.known value, s) => s.setLabelValue label (some value)
      | (_, s) => s) := by
  have hvalue := (supplies_evaluate hid e token).steps
  split
  · rename_i value t heq
    have hlater := later_evaluate s id e token
    rw [heq] at hvalue hlater
    exact hvalue.tail (.change (.assign label _ nofun (.inl (hfree.later hlater))))
  · rename_i t _ heq
    rw [heq] at hvalue
    exact hvalue

theorem steps_compileVariable {part : Line.VariablePart} (hs : s.Sound) (hid : id < s.lines.size)
    (hkind : (s.line id).kind = .variable part) : Steps .still s (s.compileVariable id part) := by
  have howned := (hs.owned id).2
  rw [hkind] at howned
  unfold compileVariable
  split
  · rename_i hlabel _
    exact steps_assign hid (howned _ hlabel) _ _
  · exact .refl

theorem steps_compileConstant (hs : s.Sound) (hid : id < s.lines.size)
    (hkind : (s.line id).kind = .command part) : Steps .still s (s.compileConstant id part) := by
  have howned := (hs.owned id).2
  rw [hkind] at howned
  unfold compileConstant
  split
  · rename_i hstate _ _
    exact steps_assign hid (howned.label _ hstate) _ _
  · exact .refl

theorem delivers_compileAddress (hid : id < s.lines.size) (d : Directive) :
    Delivers id s (s.compileAddress id d) := by
  have hword := steps_argumentWord hid 0
  unfold compileAddress
  split
  · rename_i n t heq
    rw [heq] at hword
    split
    · split
      · exact .of_still (hword.trans (steps_fail t id _ _))
      · exact ⟨t, hword.of_still, .move _⟩
    · exact ⟨t, hword.of_still, .move _⟩
  · rename_i t _ heq
    rw [heq] at hword
    exact .of_still hword

/-! ## Data -/

theorem supplies_cell (s : Assembly) (token : Token) (value : Int64) (width : Nat) :
    Supplies s (s.cell token value width).2 (none ∈ (s.cell token value width).1) := by
  unfold cell
  simp only
  refine ⟨?_, fun hmem => absurd hmem (none_notMem_map_some _)⟩
  split
  · exact .single (.change (.report _))
  · exact .refl

theorem supplies_characterCells (token : Token) (width : Nat) : ∀ (cs : List Char) (s : Assembly),
      Supplies s (s.characterCells token width cs).2 (none ∈ (s.characterCells token width cs).1)
  | [], _ => ⟨.refl, nofun⟩
  | c :: cs, s => by
    have hfirst := supplies_cell s token (Int64.ofNat c.toNat) width
    have hrest := supplies_characterCells token width cs (s.cell token (Int64.ofNat c.toNat) width).2
    refine ⟨hfirst.steps.trans hrest.steps, fun hmem hfinal => ?_⟩
    rcases List.mem_append.mp hmem with hmem | hmem
    · exact (hfirst.then hrest.steps).reported hmem hfinal
    · exact hrest.reported hmem hfinal

theorem supplies_numericCells (s : Assembly) (id : LineId) (token : Token) (value : Value) (width : Nat) :
    Supplies s (s.numericCells id token value width).2 (none ∈ (s.numericCells id token value width).1) := by
  unfold numericCells
  split
  · exact supplies_cell s token _ width
  · exact ⟨steps_fail s id _ _, fun _ _ => failed_fail s id _ _⟩

theorem supplies_valueCells (hid : id < s.lines.size) (token : Token) (e : Expression) (width : Nat) :
    Supplies s (s.valueCells id token e width).2 (none ∈ (s.valueCells id token e width).1) := by
  have hvalue := supplies_evaluate hid e token
  unfold valueCells
  split
  · rename_i text t heq
    rw [heq] at hvalue
    split
    · exact (supplies_numericCells t id token _ width).after hvalue.steps
    · exact (supplies_characterCells token width text.toList t).after hvalue.steps
  · rename_i value t _ heq
    rw [heq] at hvalue
    exact (supplies_numericCells t id token value width).after hvalue.steps
  · rename_i answer t _ hunknown heq
    rw [heq] at hvalue
    refine hvalue.imp fun _ => ?_
    cases answer with
    | known value => exact (hunknown value rfl).elim
    | pending => rfl
    | failed => rfl

theorem supplies_dataCells (width : Nat) :
    ∀ (values : List (Token × Option Expression)) {s : Assembly}, id < s.lines.size →
      Supplies s (s.dataCells id width values).2 (none ∈ (s.dataCells id width values).1 ∧ ∀ v ∈ values, v.2 ≠ none)
  | [], _, _ => ⟨.refl, nofun⟩
  | (token, none) :: rest, s, hid =>
    ⟨(supplies_dataCells width rest hid).steps, fun h => absurd rfl (h.2 _ List.mem_cons_self)⟩
  | (token, some e) :: rest, s, hid => by
    have hfirst := supplies_valueCells hid token e width
    have hrest := supplies_dataCells width rest (Nat.lt_of_lt_of_le hid hfirst.steps.size_le)
    refine ⟨hfirst.steps.trans hrest.steps, fun ⟨hmem, hall⟩ hfinal => ?_⟩
    rcases List.mem_append.mp hmem with hmem | hmem
    · exact (hfirst.then hrest.steps).reported hmem hfinal
    · exact hrest.reported ⟨hmem, fun v hv => hall v (List.mem_cons_of_mem _ hv)⟩ hfinal

theorem delivers_emit_data {width : Nat} {values : List (Token × Option Expression)}
    (hid : id < s.lines.size) (h : (∀ v ∈ values, v.2 ≠ none) ∨ s.Failed)
    (hlays : (s.dataCells id width values).2.Lays id (s.dataCells id width values).1) :
    Delivers id s ((s.dataCells id width values).2.emit id (s.dataCells id width values).1) := by
  have hcells := supplies_dataCells width values hid
  refine delivers_emit ?_ hlays
  rcases h with hall | hfailed
  · exact hcells.imp fun hmem => ⟨hmem, hall⟩
  · exact .of_failed hcells.steps hfailed

theorem delivers_compileData (hid : id < s.lines.size) (hlays : s.Unbound id) (width : Nat)
    (h : none ∉ part.expressions ∨ s.Failed) : Delivers id s (s.compileData id part width) := by
  refine delivers_emit_data hid (h.imp_left fun hall v hv hnone => hall ?_)
    (hlays _ (supplies_dataCells width _ hid).steps.of_still _)
  rw [← hnone]
  exact (List.of_mem_zip hv).2

theorem delivers_compileHex (hlays : s.Unbound id) (part : Line.CommandPart) :
    Delivers id s (s.compileHex id part) := by
  unfold compileHex
  split
  · exact delivers_emit_known .refl hlays
  · exact .of_still .refl

/-! ## Files of data -/

theorem supplies_argumentWord {index : Nat} (hid : id < s.lines.size) (hkind : (s.line id).kind = .command part)
    (hlt : index < part.arguments.length) :
    Supplies s (s.argumentWord id index).2
      ((s.argumentWord id index).1.value? = none ∧ part.expression? index ≠ none) := by
  refine ⟨steps_argumentWord hid index, ?_⟩
  unfold argumentWord Line.command?
  rw [hkind]
  simp only
  split
  · rename_i e token _ _
    exact ((supplies_evaluateWord hid e token).imp And.left).reported
  · rename_i hmissing
    rintro ⟨_, hread⟩
    obtain ⟨e, he⟩ := Option.ne_none_iff_exists'.mp hread
    exact (hmissing e part.arguments[index] he (List.getElem?_eq_getElem hlt)).elim

theorem writes_argumentWord (s : Assembly) (id : LineId) (index : Nat) : Writes s (s.argumentWord id index).2 := by
  unfold argumentWord
  split
  · exact .of_lines rfl rfl rfl rfl
  · split
    · exact writes_evaluateWord s id _ _
    · exact .of_lines rfl rfl rfl rfl

/-- Whether an argument has been read, if it is written. -/
def HasRead (part : Line.CommandPart) (index : Nat) : Prop :=
  index < part.arguments.length → part.expression? index ≠ none

theorem supplies_windowWord (index : Nat) (hid : id < s.lines.size) (hkind : (s.line id).kind = .command part) :
    Supplies s (s.windowWord id part.arguments.length index).2
      ((s.windowWord id part.arguments.length index).1.value? = none ∧ HasRead part index) := by
  unfold windowWord
  split
  · rename_i hlt
    have hword : Supplies s (s.argumentWord id index).2
        ((s.argumentWord id index).1.value? = none ∧ HasRead part index) :=
      (supplies_argumentWord hid hkind hlt).imp fun h => ⟨h.1, h.2 hlt⟩
    split
    · rename_i n t heq
      rw [heq] at hword
      exact ⟨hword.steps, nofun⟩
    · rename_i t heq
      rw [heq] at hword
      exact hword.imp fun h => ⟨rfl, h.2⟩
    · rename_i t heq
      rw [heq] at hword
      exact hword.imp fun h => ⟨rfl, h.2⟩
  · exact ⟨.refl, nofun⟩

theorem writes_windowWord (s : Assembly) (id : LineId) (count index : Nat) :
    Writes s (s.windowWord id count index).2 := by
  have hword := writes_argumentWord s id index
  unfold windowWord
  split
  · split
    · rename_i n t heq
      rw [heq] at hword
      exact hword
    · rename_i t heq
      rw [heq] at hword
      exact hword
    · rename_i t heq
      rw [heq] at hword
      exact hword
  · exact .of_lines rfl rfl rfl rfl

theorem supplies_windowWords (hid : id < s.lines.size) (hkind : (s.line id).kind = .command part) :
    Supplies s (s.windowWords id part.arguments.length).2
      ((∃ start length, (s.windowWords id part.arguments.length).1 = some (start, length, true)) ∧
        HasRead part 1 ∧ HasRead part 2) := by
  have hstart := supplies_windowWord 1 hid hkind
  have hkind' := (writes_windowWord s id part.arguments.length 1).kinds id
  have hid' := Nat.lt_of_lt_of_le hid hstart.steps.size_le
  have hlength := supplies_windowWord 2 hid' (hkind'.trans hkind)
  unfold windowWords
  split
  · rename_i t heq
    rw [heq] at hstart
    exact ⟨hstart.steps, nofun⟩
  · rename_i t heq
    rw [heq] at hstart hlength
    split
    · rename_i u heq
      rw [heq] at hlength
      exact ⟨hstart.steps.trans hlength.steps, nofun⟩
    · rename_i u heq
      rw [heq] at hlength
      exact (hstart.then hlength.steps).imp fun h => ⟨rfl, h.2.1⟩
    · rename_i length u heq
      rw [heq] at hlength
      exact (hstart.then hlength.steps).imp fun h => ⟨rfl, h.2.1⟩
  · rename_i start t heq
    rw [heq] at hstart hlength
    split
    · rename_i u heq
      rw [heq] at hlength
      exact ⟨hstart.steps.trans hlength.steps, nofun⟩
    · rename_i u heq
      rw [heq] at hlength
      exact (hlength.after hstart.steps).imp fun h => ⟨rfl, h.2.2⟩
    · rename_i length u heq
      rw [heq] at hlength
      exact ⟨hstart.steps.trans hlength.steps, nofun⟩

theorem delivers_compileBinary (hid : id < s.lines.size) (hlays : s.Unbound id) (hkind : (s.line id).kind = .command part)
    (h : (∀ data, part.state = .binary data → HasRead part 1 ∧ HasRead part 2) ∨ s.Failed) :
    Delivers id s (s.compileBinary id part) := by
  have hwords := supplies_windowWords hid hkind
  unfold compileBinary
  split
  · rename_i data hstate
    split
    · rename_i t heq
      rw [heq] at hwords
      exact .of_still hwords.steps
    · rename_i start length t heq
      rw [heq] at hwords
      refine hlays.delivers ?_
      rcases h with hread | hfailed
      · exact hwords.imp fun _ => ⟨⟨start, length, rfl⟩, hread data hstate⟩
      · exact .of_failed hwords.steps hfailed
    · rename_i start length t heq
      rw [heq] at hwords
      split
      · exact delivers_emit_known hwords.steps hlays
      · exact .of_still (hwords.steps.trans (supplies_valueError t id _ _ : Supplies _ _ False).steps)
  · exact .of_still .refl

/-! ## Messages -/

theorem steps_argumentValues : ∀ (values : List (Token × Option Expression)) {s : Assembly}, id < s.lines.size →
      Steps .still s (s.argumentValues id values).2
  | [], _, _ => .refl
  | (_, none) :: _, _, _ => .refl
  | (token, some e) :: rest, s, hid => by
    have hfirst := (supplies_evaluate hid e token).steps
    unfold argumentValues
    split
    · rename_i value t heq
      rw [heq] at hfirst
      have hrest := steps_argumentValues rest (Nat.lt_of_lt_of_le hid hfirst.size_le)
      split
      · rename_i values u heq
        rw [heq] at hrest
        exact hfirst.trans hrest
      · rename_i u heq
        rw [heq] at hrest
        exact hfirst.trans hrest
    · rename_i t _ heq
      rw [heq] at hfirst
      exact hfirst

theorem steps_formatMessage (hid : id < s.lines.size) (part : Line.CommandPart) :
    Steps .still s (s.formatMessage id part).2 := by
  have hvalues := steps_argumentValues (part.arguments.zip part.expressions) hid
  unfold formatMessage
  split
  · rename_i format values t first _ heq _
    rw [heq] at hvalues
    split
    · split
      · exact hvalues
      · exact hvalues.trans (steps_fail t id _ _)
    · exact hvalues.trans (steps_fail t id _ _)
  · rename_i t heq _
    rw [heq] at hvalues
    exact hvalues

theorem steps_compileMessage (hid : id < s.lines.size) (part : Line.CommandPart) :
    Steps .still s (s.compileMessage id part) := by
  have hmessage := steps_formatMessage hid part
  unfold compileMessage
  split
  · split
    · rename_i text t heq
      rw [heq] at hmessage
      exact hmessage.tail (.change (.around rfl rfl rfl rfl rfl rfl rfl rfl rfl rfl fun h => h))
    · rename_i t heq
      rw [heq] at hmessage
      exact hmessage
  · exact .refl

theorem steps_compileFailure (hid : id < s.lines.size) (part : Line.CommandPart) :
    Steps .still s (s.compileFailure id part) := by
  have hmessage := steps_formatMessage hid part
  unfold compileFailure
  split
  · simp only
    split
    · exact steps_fail s id _ _
    split
    · rename_i text t heq
      rw [heq] at hmessage
      exact hmessage.trans (steps_fail t id _ _)
    · rename_i t heq
      rw [heq] at hmessage
      exact hmessage
  · exact .refl

end CrossAssembler.Assembly
