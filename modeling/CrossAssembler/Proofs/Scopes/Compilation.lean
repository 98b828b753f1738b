import CrossAssembler.Proofs.Scopes.Limits

/-!
# Compiling leaves the nesting as it found it

Principal result: `advances_compileWithin`.
-/

namespace CrossAssembler.Assembly

variable {r : Regime} {s s' : Assembly} {id : LineId} {scope : ScopeId}

/-- Whether a way to compile items leaves the nesting as it found it. -/
def Balanced (r : Regime) (f : Assembly → List Item → Flow × Assembly) : Prop :=
  ∀ s items, s.Kept r → Advances r s (f s items).2

/-! ## Repetitions -/

/-- Copies lines so many times, one time after the other, each into a scope of its own. The last copy comes first. -/
def addIterations (s : Assembly) (parent : ScopeId) (body : List LineId) (count : Nat) : List (List Item) × Assembly :=
  (List.range count).foldl (fun (iterations, s) _ =>
    let (items, s) := addIteration s parent body
    (items :: iterations, s)) ([], s)

theorem addIterations_succ (s : Assembly) (parent : ScopeId) (body : List LineId) (count : Nat) :
    s.addIterations parent body (count + 1) =
      (((s.addIterations parent body count).2.addIteration parent body).1 :: (s.addIterations parent body count).1,
        ((s.addIterations parent body count).2.addIteration parent body).2) := by
  unfold addIterations
  rw [List.range_succ, List.foldl_append]
  rfl

theorem iterate_eq (s : Assembly) (id : LineId) (part : Line.CommandPart) (count : Nat) : s.iterate id part count =
      ((s.openCall.addIterations (s.line id).scope (part.body.getD []) count).1.reverse,
        (s.openCall.addIterations (s.line id).scope (part.body.getD []) count).2.closeCall) := rfl

namespace Kept

variable {parent : ScopeId}

/-- What one more iteration does: new lines are taken in and analysed. -/
theorem addIteration_spec (h : s.Kept r) (hparent : r.known → s.symbols.InUse parent)
    (body : List LineId) (hbody : r.placed → s.extent.Ordered body) :
    ∃ u ids scope, Gains r.known r.lasting s u ids scope ∧ (r.placed → Onward s u ∧ u.extent.Ordered ids) ∧
      s.addIteration parent body = ((u.arrange ids).1, (u.arrange ids).2.analyze (u.arrange ids).1) := by
  unfold Assembly.addIteration
  have hadd := fun scope => h.orderly.addScope .iteration parent (s.symbols.scope parent).source
    (fun hk => ⟨hparent hk, .inr rfl⟩) scope
  have honward := fun hp => (h.located hp).addScope .iteration parent (s.symbols.scope parent).source
  generalize s.symbols.addScope .iteration parent (s.symbols.scope parent).source = added at hadd honward ⊢
  obtain ⟨scope, symbols⟩ := added
  obtain ⟨hscope, hnew⟩ := hadd scope
  have hcopy := hscope.carries.orderly.copyLines body fun hk => (hnew hk).1
  have hgains := hscope.append hcopy
  rw [List.nil_append] at hgains
  refine ⟨_, _, scope, hgains, fun hp => ?_, rfl⟩
  obtain ⟨hcopied, hids⟩ := (honward hp).located.copyLines ((hbody hp).mono (honward hp).le) scope
  exact ⟨(honward hp).trans hcopied, hids⟩

theorem addIteration (h : s.Kept r) (hparent : r.known → s.symbols.InUse parent)
    (body : List LineId) (hbody : r.placed → s.extent.Ordered body) : Analyses r s (s.addIteration parent body).2 := by
  obtain ⟨u, ids, scope, hgains, hcopied, heq⟩ := h.addIteration_spec hparent body hbody
  rw [heq]
  have hcopy := hgains.analyses fun hp => (hcopied hp).1
  have harrange := (hcopy.kept.arrange ids fun hp => (hcopied hp).2).1
  exact (hcopy.trans harrange.analyses).trans (analyses_analyze _ _ harrange.kept)

theorem addIterations (h : s.Kept r) (hparent : r.known → s.symbols.InUse parent)
    (body : List LineId) (hbody : r.placed → s.extent.Ordered body) (count : Nat) :
    Analyses r s (s.addIterations parent body count).2 := by
  induction count with
  | zero => exact h.refl.analyses
  | succ count ih =>
    rw [addIterations_succ]
    exact ih.trans (ih.kept.addIteration (fun hk => (ih.carries.symbols hk).inUse parent (hparent hk)) body
      fun hp => (hbody hp).mono (ih.onward hp).le)

theorem iterate (h : s.Kept r) (id : LineId) (part : Line.CommandPart) (hpart : r.placed → part.Placed s.extent)
    (count : Nat) (hroom : s.depth < expansionLimit) : Analyses r s (s.iterate id part count).2 := by
  rw [iterate_eq]
  exact (h.openCall.addIterations (h.inUse id) _ (fun hp => getD_body (hpart hp)) count).insideCall hroom

end Kept

theorem advances_compileIterations {inner : Assembly → List Item → Flow × Assembly} (hinner : Balanced r inner)
    (h : s.Kept r) (iterations : List (List Item)) : Advances r s (compileIterations inner s iterations) := by
  induction iterations generalizing s with
  | nil => exact h.refl.advances
  | cons items rest ih =>
    have hfirst := hinner s items h
    unfold compileIterations
    split
    · rename_i s1 heq
      rw [heq] at hfirst
      exact hfirst
    · rename_i s1 heq
      rw [heq] at hfirst
      exact hfirst.trans (ih hfirst.kept)

theorem compileIterations_singleton (inner : Assembly → List Item → Flow × Assembly) (s : Assembly)
    (items : List Item) : compileIterations inner s [items] = (inner s items).2 := by
  unfold compileIterations
  generalize inner s items = result
  obtain ⟨flow, s1⟩ := result
  cases flow <;> rfl

/-! ## Lines -/

/-- How lines below a line are compiled: those of a call and of iterations one call deeper, where the iterations of a
repetition are made when it is compiled for the first time, and those of an included file one file deeper. -/
inductive Deeper (r : Regime) (calls files : Assembly → List Item → Flow × Assembly) (s : Assembly) (id : LineId) :
    Assembly → Prop
  | iterations {s1 : Assembly} {iterations : List (List Item)} (proceeds : Proceeds r s s1)
      (below : (none, iterations.flatten) ∈ (s.line id).nested) :
      Deeper r calls files s id (compileIterations calls s1.openCall iterations).closeCall
  | repetition {s1 : Assembly} {part : Line.CommandPart} (count : Nat) (proceeds : Proceeds r s s1)
      (placed : r.placed → part.Placed s1.extent) (room : s1.depth < expansionLimit) :
      Deeper r calls files s id (compileIterations calls ((s1.iterate id part count).2.setDirectiveState id
        (.repeated (some (s1.iterate id part count).1))).openCall (s1.iterate id part count).1).closeCall
  | file {s1 : Assembly} {path : Path} {items : List Item} (proceeds : Proceeds r s s1)
      (below : (some path, items) ∈ (s.line id).nested) :
      Deeper r calls files s id (files (s1.openFile path) items).2.closeFile

variable {calls files : Assembly → List Item → Flow × Assembly} {part : Line.CommandPart}

theorem Deeper.after {s1 : Assembly} (h : Proceeds r s s1) (hdeeper : Deeper r calls files s1 id s') :
    Deeper r calls files s id s' := by
  cases hdeeper with
  | iterations proceeds below => exact .iterations (h.trans proceeds) (h.tends.nested id below)
  | repetition count proceeds placed room => exact .repetition count (h.trans proceeds) placed room
  | file proceeds below => exact .file (h.trans proceeds) (h.tends.nested id below)

theorem mem_nested (hkind : (s.line id).kind = .command part) {x : Option Path × List Item} (hx : x ∈ part.state.nested) :
    x ∈ (s.line id).nested := by
  rw [Line.nested, hkind]
  exact hx

namespace Kept

theorem compileRepetition_cases (h : s.Kept r) (hkind : (s.line id).kind = .command part)
    (hid : r.placed → id < s.lines.size) (hpart : r.placed → part.Placed s.extent) :
    Proceeds r s (compileRepetition calls s id part) ∨ Deeper r calls files s id (compileRepetition calls s id part) := by
  unfold compileRepetition
  simp only
  split
  · rename_i iterations hstate
    refine .inr (.iterations h.refl (mem_nested hkind ?_))
    rw [hstate]
    exact List.mem_singleton_self _
  have hword := h.argumentWord id 0
  split
  · rename_i count s1 heq
    rw [heq] at hword
    have hrefuse : ∀ message,
        Proceeds r s ((s1.fail id (s1.line id).origin.span message).setDirectiveState id .none) := fun message =>
      (hword.trans (hword.kept.failAt id (hword.kept.origin (hword.lt hid)) message)).andThen fun h =>
        h.setDirectiveState id (fun _ => trivial) rfl rfl
    split
    · exact .inl (hrefuse _)
    · split
      · exact .inl (hrefuse _)
      · rename_i hlimit
        exact .inr (.repetition _ hword (hword.placed hpart) (Nat.lt_of_not_le hlimit))
  · rename_i s1 _ heq
    rw [heq] at hword
    exact .inl (hword.trans (hword.kept.setDirectiveState id (fun _ => trivial) rfl rfl))

theorem compileCommand_cases (h : s.Kept r) (hlasting : r.known → r.lasting)
    (hkind : (s.line id).kind = .command part) :
    Proceeds r s (compileCommand calls files s id part).2 ∨
      Deeper r calls files s id (compileCommand calls files s id part).2 := by
  have hcommand : (s.line id).command? = some part := by rw [Line.command?, hkind]
  have hid : r.placed → id < s.lines.size := fun _ => lt_size_of_command hcommand
  have hpart : r.placed → part.Placed s.extent := fun hp => ((h.located hp).lines id).command hcommand
  unfold compileCommand
  split
  all_goals first
    | exact .inl (h.compileAddress hid _)
    | exact .inl (h.compileData hid hpart _)
    | exact .inl (h.compileGroup hid hpart _)
    | exact .inl (h.compileHex hid part)
    | exact .inl (h.compileConstant hlasting id hpart)
    | exact .inl (h.compileEnumeration hlasting id hpart)
    | exact h.compileRepetition_cases hkind hid hpart
    | exact .inl (h.compileBinary hid part)
    | exact .inl (h.compileMessage id hpart)
    | exact .inl (h.compileFailure hid hpart)
    | exact .inl h.refl
    | skip
  unfold compileInclude
  simp only
  split
  · rename_i path items hstate
    refine .inr (.file h.refl (mem_nested hkind ?_))
    rw [hstate]
    exact List.mem_singleton_self _
  · exact .inl h.refl

/-- A line is compiled in place, or lines below it are compiled one level deeper. -/
theorem compileLine_cases (h : s.Kept r) (hlasting : r.known → r.lasting) (id : LineId) :
    Proceeds r s (compileLine calls files s id).2 ∨ Deeper r calls files s id (compileLine calls files s id).2 := by
  unfold compileLine
  split
  · exact .inl h.refl
  rename_i hskipped
  have henter := h.enterLine hlasting id
  have hid := henter.lt fun _ => lt_size_of_not_skipped hskipped
  simp only
  generalize s.enterLine id = s1 at henter hid ⊢
  have htokens := fun hp => ((henter.onward hp).located.lines id).tokens
  split
  · exact .inl henter
  · exact .inl henter
  · rename_i part hkind
    exact .inl (henter.trans (henter.kept.compileInstruction hid hkind))
  · rename_i part hkind
    rw [hkind] at htokens
    exact .inl (henter.trans (henter.kept.compileVariable hlasting id fun hp =>
      htokens hp _ (List.mem_cons_of_mem _ List.mem_cons_self)))
  · rename_i part hkind
    exact (henter.kept.compileCommand_cases hlasting hkind).imp henter.trans (.after henter)
  · rename_i part hkind
    rw [hkind] at htokens
    unfold compileCall
    simp only
    split
    · exact .inl henter
    rename_i expansion hexpansion
    have hpassed : r.placed → ∀ x ∈ (part.arguments.zip part.expressions).zip expansion.parameters,
        x.1.1.Inside s1.extent := fun hp x hx => htokens hp x.1.1 (List.mem_cons_of_mem _
      (List.of_mem_zip (a := x.1.1) (b := x.1.2) (List.of_mem_zip (a := x.1) (b := x.2) hx).1).1)
    have harguments := henter.kept.passArguments hlasting id hpassed
    rw [← compileIterations_singleton]
    refine .inr (.after henter (.iterations harguments ?_))
    rw [List.flatten_singleton, Line.nested, hkind]
    simp only [hexpansion]
    exact List.mem_singleton_self _

end Kept

theorem Deeper.advances (hdeeper : Deeper r calls files s id s') (hcalls : Balanced r calls) (hfiles : Balanced r files) :
    Advances r s s' := by
  cases hdeeper with
  | iterations proceeds below =>
    exact proceeds.advances.trans (advances_compileIterations hcalls proceeds.kept.openCall _).insideCall
  | @repetition s1 part count proceeds placed room =>
    have hiterate := (proceeds.kept.iterate id part placed count room).toAdvances
    have hkeep := (hiterate.kept.keepLines id (.repeated (some (s1.iterate id part count).1))
      (fun _ => trivial) rfl).toAdvances
    exact ((proceeds.advances.trans hiterate).trans hkeep).trans
      (advances_compileIterations hcalls hkeep.kept.openCall _).insideCall
  | file proceeds below => exact proceeds.advances.trans (hfiles _ _ (proceeds.kept.openFile _)).insideFile

/-! ## Conditionals -/

namespace Kept

theorem withRecorders (h : s.Kept r) {recorders : List (List LabelId)}
    (hrecorders : r.placed ∨ r.known ∧ r.lasting → ∀ labels ∈ recorders, ∀ label ∈ labels, label < s.symbols.labels.size) :
    Proceeds r s { s with recorders } := by
  refine ⟨fun hp => ?_, rfl, rfl, rfl, rfl, rfl, fun _ => rfl, fun _ => List.Subset.refl _, fun hk => ?_, fun _ => .refl _⟩
  · have hs := h.located hp
    exact ⟨⟨hs.freeLines, hs.freeSources, hs.lines, hs.whole, hs.symbols, hrecorders (.inl hp), hs.units, hs.unsettled,
      hs.diagnostics⟩, .refl _, fun _ _ hd => hd⟩
  · have hs := h.orderly hk
    exact ⟨hs.symbols, hs.lines, hs.idle, hs.kept, fun hl => hrecorders (.inr ⟨hk, hl⟩), hs.branches⟩

theorem recorders (h : s.Kept r) : r.placed ∨ r.known ∧ r.lasting →
    ∀ labels ∈ s.recorders, ∀ label ∈ labels, label < s.symbols.labels.size
  | .inl hp => (h.located hp).recorders
  | .inr ⟨hk, hl⟩ => (h.orderly hk).recorders hl

/-- What recording does: the analysis is the same, and what is recorded are labels. -/
theorem analyzeRecording_spec (h : s.Kept r) (items : List Item) :
    ∃ u, Proceeds r s u ∧ Proceeds r (u.analyze items) (s.analyzeRecording items).2 ∧ (r.placed ∨ r.known ∧ r.lasting →
      ∀ label ∈ (s.analyzeRecording items).1, label < (s.analyzeRecording items).2.symbols.labels.size) := by
  have hrecord : Proceeds r s { s with recorders := [] :: s.recorders } := h.withRecorders fun hasked =>
    List.forall_mem_cons.mpr ⟨fun _ hlabel => absurd hlabel List.not_mem_nil, h.recorders hasked⟩
  have hanalyze := analyses_analyze _ items hrecord.kept
  refine ⟨_, hrecord, ?_⟩
  unfold Assembly.analyzeRecording
  simp only
  generalize Assembly.analyze _ items = s1 at hanalyze ⊢
  have hlabels := hanalyze.kept.recorders
  split
  · rename_i made outer heq
    rw [heq] at hlabels
    refine ⟨hanalyze.kept.withRecorders fun hasked => (List.forall_mem_cons.mp (hlabels hasked)).2,
      fun hasked label hlabel => ?_⟩
    exact (List.forall_mem_cons.mp (hlabels hasked)).1 label (List.mem_reverse.mp hlabel)
  · exact ⟨hanalyze.kept.refl, fun _ _ hlabel => absurd hlabel List.not_mem_nil⟩

theorem setBranches (h : s.Kept r) (id : LineId) (state : BranchState)
    (hlabels : r.placed ∨ r.known ∧ r.lasting → ∀ label ∈ state.bound.flatten, label < s.symbols.labels.size) :
    Proceeds r s (s.setDirectiveState id (.branches state)) := by
  refine ⟨fun hp => ?_, h.orderly.setBranches id state fun hk hl => hlabels (.inr ⟨hk, hl⟩)⟩
  refine (h.located hp).setDirectiveState id fun labels hmem label hlabel => ?_
  exact hlabels (.inl hp) label (List.mem_flatten.mpr ⟨labels, hmem, hlabel⟩)

theorem bound_lt (h : s.Kept r) (hlasting : r.known → r.lasting) {state : BranchState}
    (hstate : s.branchState? id = some state) :
    r.placed ∨ r.known ∧ r.lasting → ∀ label ∈ state.bound.flatten, label < s.symbols.labels.size := by
  rintro (hp | ⟨hk, -⟩) label hlabel
  · obtain ⟨labels, hmem, hlabel⟩ := List.mem_flatten.mp hlabel
    exact (h.located hp).branchState hstate labels hmem label hlabel
  · exact h.orderly.bound_lt hlasting hstate hk label hlabel

end Kept

theorem mem_set_flatten {bound : List (List LabelId)} {index : Nat} {made : List LabelId} {label : LabelId}
    (h : label ∈ (bound.set index made).flatten) : label ∈ made ∨ label ∈ bound.flatten := by
  obtain ⟨labels, hlabels, hmem⟩ := List.mem_flatten.mp h
  rcases List.mem_or_eq_of_mem_set hlabels with hold | rfl
  · exact .inr (List.mem_flatten.mpr ⟨labels, hold, hmem⟩)
  · exact .inl hmem

theorem getD_flatten {bound : List (List LabelId)} {index : Nat} {label : LabelId} (h : label ∈ bound.getD index []) :
    label ∈ bound.flatten := by
  rw [List.getD_eq_getElem?_getD] at h
  cases hget : bound[index]? with
  | none =>
    rw [hget] at h
    cases h
  | some labels =>
    rw [hget] at h
    exact List.mem_flatten.mpr ⟨labels, List.mem_of_getElem? hget, h⟩

theorem Advances.labels_le (h : Advances r s s') (hasked : r.placed ∨ r.known ∧ r.lasting) :
    s.symbols.labels.size ≤ s'.symbols.labels.size :=
  hasked.elim (fun hp => (h.onward hp).le.labels) fun hkept => (h.carries.symbols hkept.1).labels

namespace Kept

theorem switchBranch_cases (h : s.Kept r) (hlasting : r.known → r.lasting) (id : LineId)
    (branches : List (LineId × List Item)) : Proceeds r s (s.switchBranch id branches).2 ∨
      ∃ u v body, Proceeds r s u ∧ (∀ item ∈ body, ∃ b ∈ branches, item ∈ b.2) ∧ Analyses r u v ∧
        Proceeds r (u.analyze body) v ∧ Proceeds r v (s.switchBranch id branches).2 := by
  unfold Assembly.switchBranch
  split
  · exact .inl h.refl
  rename_i state hstate
  have hbound := h.bound_lt hlasting hstate
  have hstep := (h.leaveBranch hlasting state branches).andThen fun h =>
    h.chooseBranch id 0 (branches.map fun b => b.1)
  simp only
  generalize (s.leaveBranch state branches).chooseBranch id 0 (branches.map fun b => b.1) = chosen at hstep ⊢
  obtain ⟨choice, s1⟩ := chosen
  simp only at hstep
  have hbound' : r.placed ∨ r.known ∧ r.lasting → ∀ label ∈ state.bound.flatten, label < s1.symbols.labels.size :=
    fun hasked label hlabel => Nat.lt_of_lt_of_le (hbound hasked label hlabel) (hstep.advances.labels_le hasked)
  cases choice with
  | none => exact .inl (hstep.trans (hstep.kept.setBranches id _ hbound'))
  | some index =>
    simp only
    have hbody : ∀ item ∈ ((branches[index]?).map fun b => b.2).getD [], ∃ b ∈ branches, item ∈ b.2 := by
      intro item hitem
      cases hget : branches[index]? with
      | none =>
        rw [hget] at hitem
        cases hitem
      | some b =>
        rw [hget] at hitem
        exact ⟨b, List.mem_of_getElem? hget, hitem⟩
    generalize ((branches[index]?).map fun b => b.2).getD [] = body at hbody ⊢
    unfold enterBranch
    split
    · have hshow := hstep.trans (hstep.kept.showAgain hlasting id (state.bound.getD index [])
        fun hasked label hlabel => hbound' hasked label (getD_flatten hlabel))
      refine .inl (hshow.trans (hshow.kept.setBranches id _ fun hasked label hlabel => ?_))
      exact Nat.lt_of_lt_of_le (hbound hasked label hlabel) (hshow.advances.labels_le hasked)
    · obtain ⟨u, hu, hafter, hmade⟩ := hstep.kept.analyzeRecording_spec body
      have hrecord := (analyses_analyze u body hu.kept).trans hafter.analyses
      refine .inr ⟨u, _, body, hstep.trans hu, hbody, hrecord, hafter, ?_⟩
      refine hafter.kept.setBranches id _ fun hasked label hlabel => ?_
      rcases mem_set_flatten hlabel with hnew | hold
      · exact hmade hasked label hnew
      · exact Nat.lt_of_lt_of_le (hbound' hasked label hold) ((hu.advances.trans hrecord.toAdvances).labels_le hasked)

theorem switchBranch (h : s.Kept r) (hlasting : r.known → r.lasting) (id : LineId)
    (branches : List (LineId × List Item)) : Analyses r s (s.switchBranch id branches).2 := by
  rcases h.switchBranch_cases hlasting id branches with hinPlace | ⟨u, v, body, hu, -, hv, -, hafter⟩
  · exact hinPlace.analyses
  · exact (hu.analyses.trans hv).trans hafter.analyses

end Kept

/-! ## Items -/

section

variable {calls files : Assembly → List Item → Flow × Assembly}

mutual

theorem advances_compileItem (hlasting : r.known → r.lasting) (hcalls : Balanced r calls)
    (hfiles : Balanced r files) :
    ∀ (item : Item) (s : Assembly), s.Kept r → Advances r s (compileItem calls files item s).2
  | .line id, _, h => (h.compileLine_cases hlasting id).elim Proceeds.advances fun hdeeper => hdeeper.advances hcalls hfiles
  | .conditional id branches, s, h => by
    unfold compileItem
    split
    · exact h.refl.advances
    have henter := h.enterLine hlasting id
    have hswitch := henter.advances.trans (henter.kept.switchBranch hlasting id branches).toAdvances
    split
    · rename_i s1 heq
      rw [heq] at hswitch
      exact hswitch
    · rename_i index s1 heq
      rw [heq] at hswitch
      exact hswitch.trans (advances_compileBranch hlasting hcalls hfiles branches index s1 hswitch.kept)

theorem advances_compileItems (hlasting : r.known → r.lasting) (hcalls : Balanced r calls)
    (hfiles : Balanced r files) :
    ∀ (items : List Item) (s : Assembly), s.Kept r → Advances r s (compileItems calls files items s).2
  | [], _, h => h.refl.advances
  | item :: items, s, h => by
    have hfirst := advances_compileItem hlasting hcalls hfiles item s h
    unfold compileItems
    split
    · exact h.refl.advances
    split
    · rename_i s1 heq
      rw [heq] at hfirst
      exact hfirst
    · rename_i s1 heq
      rw [heq] at hfirst
      exact hfirst.trans (advances_compileItems hlasting hcalls hfiles items s1 hfirst.kept)

theorem advances_compileBranch (hlasting : r.known → r.lasting) (hcalls : Balanced r calls)
    (hfiles : Balanced r files) :
    ∀ (branches : List (LineId × List Item)) (index : Nat) (s : Assembly), s.Kept r →
      Advances r s (compileBranch calls files index branches s).2
  | [], _, _, h => h.refl.advances
  | branch :: _, 0, s, h => advances_compileBody hlasting hcalls hfiles branch s h
  | _ :: branches, index + 1, s, h => advances_compileBranch hlasting hcalls hfiles branches index s h

theorem advances_compileBody (hlasting : r.known → r.lasting) (hcalls : Balanced r calls)
    (hfiles : Balanced r files) :
    ∀ (branch : LineId × List Item) (s : Assembly), s.Kept r → Advances r s (compileBody calls files branch s).2
  | (_, body), s, h => advances_compileItems hlasting hcalls hfiles body s h

end

end

theorem advances_compileWithin (hlasting : r.known → r.lasting) (b : Budget) : Balanced r (compileWithin b) := by
  induction b with
  | spent => exact fun s _ h => h.refl.advances
  | left calls files ihcalls ihfiles =>
    exact fun s items h => advances_compileItems hlasting ihcalls ihfiles items s h

/-! ## Files and passes -/

namespace Kept

theorem addFile (h : s.Kept r) (path : Path) (text : String) : (s.addFile path text).Kept r := by
  refine ⟨fun hp => ?_, (h.orderly.loadSource path text).carries.orderly.congr rfl rfl rfl⟩
  obtain ⟨hload, hids⟩ := (h.located hp).loadSource path text
  unfold Assembly.addFile
  generalize s.loadSource path text = loaded at hload hids ⊢
  obtain ⟨⟨source, scope, ids⟩, s1⟩ := loaded
  refine (hload.located.withUnits (List.forall_mem_append.mpr ⟨hload.located.units, ?_⟩)).located
  refine List.forall_mem_singleton.mpr ?_
  have hsame : (ids.map Item.line).map Item.id = ids := by
    rw [List.map_map]
    exact List.map_id ids
  exact hsame.symm ▸ hids

theorem declareUnit (h : s.Kept r) (index : Nat) : (s.declareUnit index).Kept r := by
  unfold Assembly.declareUnit
  split
  · exact h
  rename_i u hu
  have hordered : r.placed → s.extent.Ordered (u.items.map Item.id) := fun hp =>
    (h.located hp).units u (List.mem_of_getElem? hu)
  obtain ⟨harrange, hitems⟩ := h.arrange _ hordered
  simp only
  generalize s.arrange (u.items.map Item.id) = arranged at harrange hitems ⊢
  obtain ⟨items, s1⟩ := arranged
  have hopen : (s1.openUnit u.path).Kept r := harrange.kept.congr rfl rfl rfl rfl rfl rfl rfl rfl
  have hdeclare := analyses_declareWithin .full _ items hopen
  have hclose : ((s1.openUnit u.path).declare items).closeUnits.Kept r :=
    hdeclare.kept.congr rfl rfl rfl rfl rfl rfl rfl rfl
  refine ⟨fun hp => ((hclose.located hp).withUnits fun v hv => ?_).located, hclose.orderly.congr rfl rfl rfl⟩
  obtain ⟨i, hi⟩ := List.mem_iff_getElem?.mp hv
  rw [List.getElem?_modify] at hi
  obtain ⟨w, hw, rfl⟩ := Option.map_eq_some_iff.mp hi
  split
  · exact ((hordered hp).sublist hitems).mono ((harrange.le hp).trans (hdeclare.onward hp).le)
  · exact (hclose.located hp).units w (List.mem_of_getElem? hw)

theorem analyzeUnits (h : s.Kept r) (indices : List Nat) : (s.analyzeUnits indices).Kept r := by
  unfold Assembly.analyzeUnits
  refine List.foldlRecOn indices _ (List.foldlRecOn indices _ (List.foldlRecOn indices _ h ?_) ?_) ?_
  · exact fun s h index _ => h.declareUnit index
  · exact fun s h index _ => (analyses_resolveWithin .full s (s.unitItems index) h).kept
  · exact fun s h index _ => (Kept.parseWithin .full s (s.unitItems index) h).kept

theorem analyzeFiles (h : s.Kept r) : s.analyzeFiles.Kept r :=
  (h.analyzeUnits _).congr rfl rfl rfl rfl rfl rfl rfl rfl

theorem beginPass (h : s.Kept r) (index : Nat) (last : Bool) : (s.beginPass index last).Kept r := by
  refine ⟨fun hp => ?_, h.orderly.congr rfl rfl rfl⟩
  have hs := h.located hp
  exact ⟨hs.freeLines, hs.freeSources, hs.lines, hs.whole, hs.symbols, hs.recorders, hs.units, nofun, hs.diagnostics⟩

theorem runPass (h : s.Kept r) (hlasting : r.known → r.lasting) (index : Nat) (last : Bool) :
    (s.runPass index last).Kept r := by
  have hunits : ((s.beginPass index last).units.foldl compileUnit (s.beginPass index last)).Kept r :=
    List.foldlRecOn _ _ (h.beginPass index last) fun s h u _ => (advances_compileWithin hlasting .full
      (s.openUnit u.path) u.items (h.congr rfl rfl rfl rfl rfl rfl rfl rfl)).kept
  exact hunits.congr rfl rfl rfl rfl rfl rfl rfl rfl

theorem runPassesFrom (hlasting : r.known → r.lasting) (total bound : Nat) (h : s.Kept r) (index : Nat)
    (last : Bool) : (runPassesFrom total bound s index last).Kept r := by
  induction bound generalizing s index last with
  | zero => exact h
  | succ bound ih =>
    have hpass := h.runPass hlasting index last
    unfold Assembly.runPassesFrom
    simp only
    split
    · exact hpass
    split
    · split
      · rename_i span hspan
        exact (hpass.warn (fun hp => (hpass.located hp).unsettled span hspan) _).kept
      · exact hpass
    · exact ih hpass _ _

theorem compile (h : s.Kept r) (hlasting : r.known → r.lasting) : s.compile.Kept r :=
  runPassesFrom hlasting _ _ h.analyzeFiles _ _

end Kept

end CrossAssembler.Assembly
