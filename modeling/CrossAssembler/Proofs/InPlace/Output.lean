import CrossAssembler.Proofs.InPlace.Analysis

/-!
# Output in place

In a pass labels get values, bytes are written and branches are left. All of that is work in place. It is done
only where nothing is ever released, so every number below the count of labels is that of a label.

* `Kept.compileInstruction` — what is wrong with an instruction is reported at its mnemonic or its operand.
* `Kept.dataCells`, `Kept.formatMessage` — what is wrong with data or a message is reported at the value or the
  format.
* `Kept.leaveBranch`, `Kept.chooseBranch` — what a conditional does in place.
-/

namespace CrossAssembler.Assembly

variable {r : Regime} {s s' : Assembly} {id : LineId} {token : Token} {part : Line.CommandPart}

theorem Located.branchState (h : s.Located) {state : BranchState} (hstate : s.branchState? id = some state) :
    (DirectiveState.branches state).Placed s.extent := by
  have hplaced := h.directiveState id
  unfold Assembly.branchState? at hstate
  split at hstate
  · rename_i heq
    cases hstate
    rw [heq] at hplaced
    exact hplaced
  · cases hstate

namespace Orderly

variable {known lasting : Prop}

theorem directiveState_labels (h : s.Orderly known lasting) (hlasting : known → lasting) {state : DirectiveState}
    (hstate : s.directiveState id = state) : known → ∀ label ∈ state.labels, label < s.symbols.labels.size := by
  intro hk label hlabel
  refine (h hk).branches (hlasting hk) id label ?_
  rw [← hstate] at hlabel
  unfold Assembly.directiveState Line.command? at hlabel
  unfold Line.branchLabels
  generalize (s.line id).kind = kind at hlabel ⊢
  cases kind <;> exact hlabel

theorem bound_lt (h : s.Orderly known lasting) (hlasting : known → lasting) {state : BranchState}
    (hstate : s.branchState? id = some state) :
    known → ∀ label ∈ state.bound.flatten, label < s.symbols.labels.size := by
  unfold Assembly.branchState? at hstate
  split at hstate
  · rename_i state' heq
    cases hstate
    exact h.directiveState_labels hlasting heq
  · cases hstate

end Orderly

namespace Kept

section

variable (h : s.Kept r)
variable {values : List (Token × Option Expression)}

include h

/-! ## Lines and their bytes -/

/-- Where nothing is ever released, any label gets a value. -/
theorem assign (hlasting : r.known → r.lasting) (label : LabelId) (value : Option Value) :
    Proceeds r s (s.setLabelValue label value) := by
  refine h.setLabelValue (fun hk => ?_) value
  rw [((h.orderly hk).kept (hlasting hk)).2.1]
  exact List.not_mem_nil

theorem beginLine (id : LineId) : Proceeds r s (s.beginLine id) := h.modifyState id fun _ => ⟨rfl, rfl, rfl, rfl⟩

theorem enterLine (hlasting : r.known → r.lasting) (id : LineId) : Proceeds r s (s.enterLine id) := by
  have hstep := (h.beginLine id).andThen fun h => h.note (.entered id ((s.beginLine id).line id).labelId)
  unfold Assembly.enterLine
  simp only
  split
  · exact hstep.trans (hstep.kept.assign hlasting _ _)
  · exact hstep

/-- Only a line that there is can fail to be written. -/
theorem emit (hid : r.placed → id < s.lines.size) (cells : List Cell) : Proceeds r s (s.emit id cells) := by
  have hwrite : ∀ s', Proceeds r s s' → Proceeds r s
      (({ s'.note (.emitted id cells) with cursor := s'.cursor.advance cells.length } : Assembly).modifyLine id
        fun l => { l with bytes := cells }) := by
    intro s' hstep
    have hmove : Proceeds r s' { s'.note (.emitted id cells) with cursor := s'.cursor.advance cells.length } :=
      hstep.kept.around rfl rfl rfl rfl rfl rfl rfl rfl rfl rfl rfl
    exact (hstep.trans hmove).trans (hmove.kept.modifyState id fun _ => ⟨rfl, rfl, rfl, rfl⟩)
  refine hwrite _ ?_
  split
  · exact h.around rfl rfl rfl rfl rfl rfl rfl rfl rfl rfl rfl
  · exact h.failAt id (h.origin hid) _

/-! ## Instructions -/

theorem operandWords (id : LineId) {expressions : List (Token × Expression)}
    (htokens : r.placed → ∀ x ∈ expressions, x.1.Inside s.extent) :
    Proceeds r s (s.operandWords id expressions).2 := by
  induction expressions generalizing s with
  | nil => exact h.refl
  | cons x expressions ih =>
    have hword := h.evaluateWord id x.2 fun hp => htokens hp x List.mem_cons_self
    exact hword.trans (ih hword.kept fun hp y hy => (htokens hp y (List.mem_cons_of_mem _ hy)).mono (hword.le hp))

theorem lockWidth (id : LineId) (width : Nat) : Proceeds r s (s.lockWidth id width) := by
  refine h.modifyInstruction id (f := fun part => { part with locked := max part.locked width })
    (fun _ => ⟨rfl, rfl⟩) fun hp part hpart => ?_
  have hkind := ((h.located hp).lines id).kind
  rw [hpart] at hkind
  exact hkind

theorem compileInstruction (hid : r.placed → id < s.lines.size) {part : Line.InstructionPart}
    (hpart : (s.line id).kind = .instruction part) : Proceeds r s (s.compileInstruction id part) := by
  have htokens := fun hp => ((h.located hp).lines id).tokens
  have hkind := fun hp => ((h.located hp).lines id).kind
  rw [hpart] at htokens hkind
  have hmnemonic : r.placed → part.mnemonic.Inside s.extent := fun hp => htokens hp _ List.mem_cons_self
  have hoperand : r.placed → part.operand.Inside s.extent := fun hp =>
    htokens hp _ (List.mem_cons_of_mem _ List.mem_cons_self)
  unfold Assembly.compileInstruction
  split
  · exact h.refl
  rename_i m hm
  have hwords := h.operandWords id fun hp => hkind hp m hm
  -- an operand that does not do, and places for it
  have hreserve : ∀ {s' : Assembly} (message : String) (cells : List Cell), Proceeds r s s' →
      Proceeds r s ((s'.valueError id part.operand.span message).emit id cells) := by
    intro s' message cells hstep
    have hboth := hstep.trans (hstep.kept.valueError id (fun hp => (hstep.inside hoperand hp).sited) message)
    exact hboth.trans (hboth.kept.emit (hboth.lt hid) cells)
  simp only
  generalize s.operandWords id m.expressions = result at hwords ⊢
  obtain ⟨words, s1⟩ := result
  split
  · exact hwords.trans (hwords.kept.failAt id (hwords.inside hmnemonic) _)
  · exact hreserve _ _ hwords
  rename_i encoding _
  have hlock := hwords.trans (hwords.kept.lockWidth id encoding.width)
  split
  · exact hlock.trans (hlock.kept.emit (hlock.lt hid) _)
  · split
    · exact hlock.trans (hlock.kept.emit (hlock.lt hid) _)
    · exact hreserve _ _ hlock

/-! ## Values of labels -/

theorem assignValue (hlasting : r.known → r.lasting) (id : LineId) (e : Expression)
    (ht : r.placed → token.Inside s.extent) (label : LabelId) :
    Proceeds r s (match s.evaluate id e token with
      | (.known value, s1) => s1.setLabelValue label (some value)
      | (_, s1) => s1) := by
  have hvalue := h.evaluate id e ht
  split
  · rename_i value s1 heq
    rw [heq] at hvalue
    exact hvalue.trans (hvalue.kept.assign hlasting label _)
  · rename_i s1 _ heq
    rw [heq] at hvalue
    exact hvalue

theorem compileVariable (hlasting : r.known → r.lasting) (id : LineId) {part : Line.VariablePart}
    (hexpression : r.placed → part.expression.Inside s.extent) : Proceeds r s (s.compileVariable id part) := by
  unfold Assembly.compileVariable
  split
  · exact h.assignValue hlasting id _ hexpression _
  · exact h.refl

theorem compileConstant (hlasting : r.known → r.lasting) (id : LineId) (hpart : r.placed → part.Placed s.extent) :
    Proceeds r s (s.compileConstant id part) := by
  unfold Assembly.compileConstant
  split
  · rename_i label e token _ _ htoken
    exact h.assignValue hlasting id _ (fun hp => (hpart hp).arguments token (List.mem_of_getElem? htoken)) _
  · exact h.refl

theorem compileAddress (hid : r.placed → id < s.lines.size) (d : Directive) : Proceeds r s (s.compileAddress id d) := by
  have hword := h.argumentWord id 0
  unfold Assembly.compileAddress
  split
  · rename_i n s1 heq
    rw [heq] at hword
    split
    · split
      · exact hword.trans (hword.kept.failAt id (hword.kept.origin (hword.lt hid)) _)
      · exact hword.trans (hword.kept.around rfl rfl rfl rfl rfl rfl rfl rfl rfl rfl rfl)
    · exact hword.trans (hword.kept.around rfl rfl rfl rfl rfl rfl rfl rfl rfl rfl rfl)
  · rename_i heq
    rw [heq] at hword
    exact hword

theorem rowLength (id : LineId) {row : EnumRow} (hrow : r.placed → ∀ t ∈ row.length, t.Inside s.extent) :
    Proceeds r s (s.rowLength id row).2 := by
  unfold Assembly.rowLength
  split
  · rename_i e token _ hlength
    exact h.evaluateWord id e fun hp => hrow hp token hlength
  · exact h.refl
  · exact h.refl

theorem compileRows (hlasting : r.known → r.lasting) (id : LineId) (current : Option Int64) {rows : List EnumRow}
    (hrows : r.placed → ∀ row ∈ rows, ∀ t ∈ row.length, t.Inside s.extent) :
    Proceeds r s (s.compileRows id current rows) := by
  induction rows generalizing s current with
  | nil => exact h.refl
  | cons row rows ih =>
    have hlater : ∀ s', Proceeds r s s' → ∀ next, Proceeds r s ((s'.rowLength id row).2.compileRows id next rows) := by
      intro s' hstep next
      have hlength := hstep.trans (hstep.kept.rowLength id fun hp t ht =>
        (hrows hp row List.mem_cons_self t ht).mono (hstep.le hp))
      exact hlength.trans (ih hlength.kept next fun hp row' hrow' t ht =>
        (hrows hp row' (List.mem_cons_of_mem _ hrow') t ht).mono (hlength.le hp))
    unfold Assembly.compileRows
    refine hlater _ ?_ _
    split
    · exact h.assign hlasting row.label _
    · exact h.refl

theorem compileEnumeration (hlasting : r.known → r.lasting) (id : LineId) (hpart : r.placed → part.Placed s.extent) :
    Proceeds r s (s.compileEnumeration id part) := by
  have hstate := fun hp => (hpart hp).state
  unfold Assembly.compileEnumeration
  split
  · rename_i rows hrows
    rw [hrows] at hstate
    have hnote := h.note (.numbered id)
    have hlater : ∀ s', Proceeds r s s' → ∀ start, Proceeds r s (s'.compileRows id start rows) := fun s' hstep start =>
      hstep.trans (hstep.kept.compileRows hlasting id start fun hp row hrow t ht =>
        (hstate hp row hrow t ht).mono (hstep.le hp))
    split
    · exact hlater _ hnote _
    · exact hlater _ (hnote.trans (hnote.kept.argumentWord id 0)) _
  · exact h.refl

/-! ## Data -/

theorem cell (ht : r.placed → token.Inside s.extent) (value : Int64) (width : Nat) :
    Proceeds r s (s.cell token value width).2 := by
  unfold Assembly.cell
  simp only
  split
  · exact h.warn (fun hp => (ht hp).sited) _
  · exact h.refl

theorem characterCells (ht : r.placed → token.Inside s.extent) (width : Nat) (cs : List Char) :
    Proceeds r s (s.characterCells token width cs).2 := by
  induction cs generalizing s with
  | nil => exact h.refl
  | cons c cs ih =>
    have hcell := h.cell ht (Int64.ofNat c.toNat) width
    exact hcell.trans (ih hcell.kept (hcell.inside ht))

theorem numericCells (id : LineId) (ht : r.placed → token.Inside s.extent) (value : Value) (width : Nat) :
    Proceeds r s (s.numericCells id token value width).2 := by
  unfold Assembly.numericCells
  split
  · exact h.cell ht _ width
  · exact h.failAt id ht _

theorem valueCells (id : LineId) (ht : r.placed → token.Inside s.extent) (e : Expression) (width : Nat) :
    Proceeds r s (s.valueCells id token e width).2 := by
  have hvalue := h.evaluate id e ht
  unfold Assembly.valueCells
  generalize s.evaluate id e token = result at hvalue ⊢
  obtain ⟨answer, s1⟩ := result
  have ht1 := hvalue.inside ht
  split
  · rename_i text s2 heq
    cases heq
    split
    · exact hvalue.trans (hvalue.kept.numericCells id ht1 _ width)
    · exact hvalue.trans (hvalue.kept.characterCells ht1 width _)
  · rename_i value s2 _ heq
    cases heq
    exact hvalue.trans (hvalue.kept.numericCells id ht1 value width)
  · rename_i s2 _ _ heq
    cases heq
    exact hvalue

theorem dataCells (id : LineId) (width : Nat)
    (hvalues : r.placed → ∀ x ∈ values, x.1.Inside s.extent) : Proceeds r s (s.dataCells id width values).2 := by
  induction values generalizing s with
  | nil => exact h.refl
  | cons x values ih =>
    obtain ⟨token, e⟩ := x
    have hrest : r.placed → ∀ y ∈ values, y.1.Inside s.extent := fun hp y hy => hvalues hp y (List.mem_cons_of_mem _ hy)
    cases e with
    | none => exact ih h hrest
    | some e =>
      have hcells := h.valueCells id (fun hp => hvalues hp (token, some e) List.mem_cons_self) e width
      exact hcells.trans (ih hcells.kept fun hp y hy => (hrest hp y hy).mono (hcells.le hp))

theorem emitData (hid : r.placed → id < s.lines.size) (width : Nat)
    (hvalues : r.placed → ∀ x ∈ values, x.1.Inside s.extent) :
    Proceeds r s ((s.dataCells id width values).2.emit id (s.dataCells id width values).1) := by
  have hcells := h.dataCells id width hvalues
  exact hcells.trans (hcells.kept.emit (hcells.lt hid) _)

theorem compileData (hid : r.placed → id < s.lines.size) (hpart : r.placed → part.Placed s.extent) (width : Nat) :
    Proceeds r s (s.compileData id part width) :=
  h.emitData hid width fun hp x hx => (hpart hp).arguments x.1 (List.of_mem_zip (a := x.1) (b := x.2) hx).1

theorem compileGroup (hid : r.placed → id < s.lines.size) (hpart : r.placed → part.Placed s.extent) (width : Nat) :
    Proceeds r s (s.compileGroup id part width) := by
  have hstate := fun hp => (hpart hp).state
  unfold Assembly.compileGroup
  split
  · rename_i cells hcells
    rw [hcells] at hstate
    exact h.emitData hid width fun hp => List.forall_mem_map.mpr (hstate hp)
  · exact h.refl

theorem compileHex (hid : r.placed → id < s.lines.size) (part : Line.CommandPart) :
    Proceeds r s (s.compileHex id part) := by
  unfold Assembly.compileHex
  split
  · exact h.emit hid _
  · exact h.refl

theorem windowWord (id : LineId) (count index : Nat) : Proceeds r s (s.windowWord id count index).2 := by
  have hword := h.argumentWord id index
  unfold Assembly.windowWord
  generalize s.argumentWord id index = result at hword ⊢
  obtain ⟨answer, s1⟩ := result
  split
  · cases answer <;> exact hword
  · exact h.refl

theorem windowWords (id : LineId) (count : Nat) : Proceeds r s (s.windowWords id count).2 := by
  have hstart := h.windowWord id count 1
  unfold Assembly.windowWords
  generalize s.windowWord id count 1 = start at hstart ⊢
  obtain ⟨start, s1⟩ := start
  have hlength := hstart.trans (hstart.kept.windowWord id count 2)
  simp only at hlength
  rcases hsecond : s1.windowWord id count 2 with ⟨length, s2⟩
  rw [hsecond] at hlength
  cases start with
  | failed => exact hstart
  | pending =>
    simp only [hsecond]
    cases length <;> exact hlength
  | known n =>
    simp only [hsecond]
    cases length <;> exact hlength

theorem compileBinary (hid : r.placed → id < s.lines.size) (part : Line.CommandPart) :
    Proceeds r s (s.compileBinary id part) := by
  have hwords := h.windowWords id part.arguments.length
  unfold Assembly.compileBinary
  generalize s.windowWords id part.arguments.length = result at hwords ⊢
  obtain ⟨window, s1⟩ := result
  have hlt := hwords.lt hid
  split
  · split
    · rename_i heq
      cases heq
      exact hwords
    · rename_i heq
      cases heq
      exact hwords.trans (hwords.kept.emit hlt _)
    · rename_i heq
      cases heq
      split
      · exact hwords.trans (hwords.kept.emit hlt _)
      · exact hwords.trans (hwords.kept.valueError id (fun hp => (hwords.kept.origin hlt hp).sited) _)
  · exact h.refl

/-! ## Messages and arguments -/

theorem argumentValues (id : LineId)
    (hvalues : r.placed → ∀ x ∈ values, x.1.Inside s.extent) : Proceeds r s (s.argumentValues id values).2 := by
  induction values generalizing s with
  | nil => exact h.refl
  | cons x values ih =>
    obtain ⟨token, e⟩ := x
    cases e with
    | none => exact h.refl
    | some e =>
      have hvalue := h.evaluate id e fun hp => hvalues hp (token, some e) List.mem_cons_self
      unfold Assembly.argumentValues
      generalize s.evaluate id e token = result at hvalue ⊢
      obtain ⟨answer, s1⟩ := result
      have hlater := hvalue.trans (ih hvalue.kept fun hp y hy =>
        (hvalues hp y (List.mem_cons_of_mem _ hy)).mono (hvalue.le hp))
      simp only at hlater
      rcases hrestValues : s1.argumentValues id values with ⟨known, s2⟩
      rw [hrestValues] at hlater
      cases answer with
      | known value =>
        simp only [hrestValues]
        cases known <;> exact hlater
      | pending => exact hvalue
      | failed => exact hvalue

theorem formatMessage (id : LineId) (hpart : r.placed → part.Placed s.extent) :
    Proceeds r s (s.formatMessage id part).2 := by
  have htokens : r.placed → ∀ x ∈ part.arguments.zip part.expressions, x.1.Inside s.extent :=
    fun hp x hx => (hpart hp).arguments x.1 (List.of_mem_zip (a := x.1) (b := x.2) hx).1
  have hvalues := h.argumentValues id htokens
  unfold Assembly.formatMessage
  generalize s.argumentValues id (part.arguments.zip part.expressions) = result at hvalues ⊢
  obtain ⟨values, s1⟩ := result
  split
  · rename_i first rest heq harguments
    cases heq
    have hfirst := hvalues.inside fun hp => (hpart hp).arguments first (harguments ▸ List.mem_cons_self)
    split
    · split
      · exact hvalues
      · exact hvalues.trans (hvalues.kept.failAt id hfirst _)
    · exact hvalues.trans (hvalues.kept.failAt id hfirst _)
  · rename_i heq _
    cases heq
    exact hvalues

theorem compileMessage (id : LineId) (hpart : r.placed → part.Placed s.extent) :
    Proceeds r s (s.compileMessage id part) := by
  have hformat := h.formatMessage id hpart
  unfold Assembly.compileMessage
  split
  · split
    · rename_i text s1 heq
      rw [heq] at hformat
      exact hformat.trans (hformat.kept.around rfl rfl rfl rfl rfl rfl rfl rfl rfl rfl rfl)
    · rename_i s1 heq
      rw [heq] at hformat
      exact hformat
  · exact h.refl

theorem compileFailure (hid : r.placed → id < s.lines.size) (hpart : r.placed → part.Placed s.extent) :
    Proceeds r s (s.compileFailure id part) := by
  have hformat := h.formatMessage id hpart
  have horigin := h.origin hid
  unfold Assembly.compileFailure
  split
  · simp only
    split
    · exact h.failAt id horigin _
    split
    · rename_i text s1 heq
      rw [heq] at hformat
      exact hformat.trans (hformat.kept.failAt id (hformat.inside horigin) _)
    · rename_i s1 heq
      rw [heq] at hformat
      exact hformat
  · exact h.refl

theorem passArguments (hlasting : r.known → r.lasting) (id : LineId)
    {passed : List ((Token × Option Expression) × LabelId)} (hpassed : r.placed → ∀ x ∈ passed, x.1.1.Inside s.extent) :
    Proceeds r s (s.passArguments id passed) := by
  induction passed generalizing s with
  | nil => exact h.refl
  | cons x passed ih =>
    obtain ⟨⟨token, e⟩, label⟩ := x
    have hlater : ∀ (value : Option Value) (s' : Assembly), Proceeds r s s' →
        Proceeds r s ((s'.setLabelValue label value).passArguments id passed) := by
      intro value s' hstep
      have hset := hstep.trans (hstep.kept.assign hlasting label value)
      exact hset.trans (ih hset.kept fun hp y hy => (hpassed hp y (List.mem_cons_of_mem _ hy)).mono (hset.le hp))
    cases e with
    | none => exact hlater none s h.refl
    | some e => exact hlater _ _ (h.evaluate id e fun hp => hpassed hp _ List.mem_cons_self)

/-! ## Branches -/

theorem hide (labels : List LabelId) : Proceeds r s (s.hide labels) :=
  ⟨fun hp => (h.located hp).hide labels, h.orderly.withSymbols fun _ => .unbindAll labels _⟩

end

section

variable {inner : Assembly → List Item → Assembly}

mutual

theorem retractItem (hinner : InPlace r inner) (hlasting : r.known → r.lasting) :
    ∀ (item : Item) (s : Assembly), s.Kept r → Proceeds r s (retractItem inner item s)
  | .line id, s, h => foldl hinner h (linesBelow (s.line id))
  | .conditional id branches, s, h => by
    unfold Assembly.retractItem
    split
    · exact h.refl
    rename_i state hstate
    split
    · exact h.refl
    rename_i index _
    have hlabels := h.orderly.bound_lt hlasting hstate
    have hplaced : r.placed → (DirectiveState.branches state).Placed s.extent :=
      fun hp => (h.located hp).branchState hstate
    have hclear : Proceeds r s (s.setDirectiveState id (.branches { state with active := none })) :=
      ⟨fun hp => (h.located hp).setDirectiveState id (hplaced hp), h.orderly.setBranches id _ fun hk _ => hlabels hk⟩
    have hhide := hclear.trans (hclear.kept.hide (state.bound.getD index []))
    exact hhide.trans (retractBranch hinner hlasting branches index _ hhide.kept)

theorem retractItems (hinner : InPlace r inner) (hlasting : r.known → r.lasting) :
    ∀ (items : List Item) (s : Assembly), s.Kept r → Proceeds r s (retractItems inner items s)
  | [], _, h => h.refl
  | item :: items, s, h =>
    (retractItem hinner hlasting item s h).andThen fun h => retractItems hinner hlasting items _ h

theorem retractBranch (hinner : InPlace r inner) (hlasting : r.known → r.lasting) :
    ∀ (branches : List (LineId × List Item)) (index : Nat) (s : Assembly), s.Kept r →
      Proceeds r s (retractBranch inner index branches s)
  | [], _, _, h => h.refl
  | branch :: _, 0, s, h => retractBody hinner hlasting branch s h
  | _ :: branches, index + 1, s, h => retractBranch hinner hlasting branches index s h

theorem retractBody (hinner : InPlace r inner) (hlasting : r.known → r.lasting) :
    ∀ (branch : LineId × List Item) (s : Assembly), s.Kept r → Proceeds r s (retractBody inner branch s)
  | (_, body), s, h => retractItems hinner hlasting body s h

end

end

theorem retractWithin (hlasting : r.known → r.lasting) (bound : Nat) : InPlace r (retractWithin bound) := by
  induction bound with
  | zero => exact fun s _ h => h.refl
  | succ bound ih => exact fun s items h => retractItems ih hlasting items s h

theorem leaveBranch (h : s.Kept r) (hlasting : r.known → r.lasting) (state : BranchState)
    (branches : List (LineId × List Item)) : Proceeds r s (s.leaveBranch state branches) := by
  unfold Assembly.leaveBranch
  split
  · exact h.refl
  · simp only
    split
    · exact (h.hide _).andThen fun h => retractWithin hlasting nestingLimit _ _ h
    · exact h.hide _

theorem chooseBranch (h : s.Kept r) (id : LineId) (index : Nat) (headers : List LineId) :
    Proceeds r s (s.chooseBranch id index headers).2 := by
  induction headers generalizing s index with
  | nil => exact h.refl
  | cons header headers ih =>
    have hbegin : Proceeds r s (if header = id then s else s.beginLine header) := by
      split
      · exact h.refl
      · exact h.beginLine header
    unfold Assembly.chooseBranch
    simp only
    generalize (if header = id then s else s.beginLine header) = s1 at hbegin ⊢
    have hdefined : ∀ defined : Bool, Proceeds r s
        (if defined then (some index, s1) else s1.chooseBranch id (index + 1) headers).2 := by
      intro defined
      split
      · exact hbegin
      · exact hbegin.trans (ih hbegin.kept (index + 1))
    split
    · exact hbegin
    rename_i part hpart
    split
    · exact hbegin
    · split
      · exact hbegin
      · exact hdefined _
    · split
      · exact hbegin
      · exact hdefined _
    split
    · rename_i e token rest _ harguments
      have hvalue := hbegin.trans (hbegin.kept.evaluate header e fun hp =>
        (((hbegin.onward hp).located.lines header).command hpart).arguments token (harguments ▸ List.mem_cons_self))
      split
      · rename_i value s2 heq
        rw [heq] at hvalue
        split
        · exact hvalue
        · exact hvalue.trans (ih hvalue.kept (index + 1))
      · rename_i s2 _ heq
        rw [heq] at hvalue
        exact hvalue
    · exact hbegin

theorem showAgain (h : s.Kept r) (hlasting : r.known → r.lasting) (id : LineId) (labels : List LabelId)
    (hlabels : r.placed ∨ r.known ∧ r.lasting → ∀ label ∈ labels, label < s.symbols.labels.size) :
    Proceeds r s (s.showAgain id labels) := by
  induction labels generalizing s with
  | nil => exact h.refl
  | cons label labels ih =>
    have hlater : ∀ s1, Proceeds r s s1 → Proceeds r s (s1.showAgain id labels) := fun s1 hstep =>
      hstep.trans (ih hstep.kept fun hasked l hl => Nat.lt_of_lt_of_le (hlabels hasked l (List.mem_cons_of_mem _ hl))
        (hasked.elim (fun hp => (hstep.le hp).labels) fun hkept => (hstep.tends.symbols hkept.1).labels))
    have hlabel := fun hasked => hlabels hasked label List.mem_cons_self
    have hplaced := fun hp => (h.located hp).symbols.rebind (hlabel (.inl hp) : label < s.extent.labels)
    refine hlater _ ?_
    simp only
    split
    · rename_i symbols hshown
      rw [hshown] at hplaced
      refine ⟨fun hp => (h.located hp).sameLabels (hplaced hp), h.orderly.withSymbols fun hk =>
        .rebind ⟨hlabel (.inr ⟨hk, hlasting hk⟩), ?_⟩ hshown⟩
      rw [((h.orderly hk).kept (hlasting hk)).2.1]
      exact List.not_mem_nil
    · rename_i e hfailed
      rw [hfailed] at hplaced
      refine ⟨fun hp => (h.located hp).symbolError id (hplaced hp) ?_, h.orderly.symbolError id _ _⟩
      exact (h.located hp).symbols.labels label (hlabel (.inl hp))

end Kept

end CrossAssembler.Assembly
