import CrossAssembler.Proofs.Assembly.Visits

/-!
# Branches are changed in steps

* `works_retractWithin` — hiding what branches in use have made.
* `visits_enterBranch` — a branch that comes up first is analysed; later its labels come back.

Principal result: `visits_switchBranch` — a conditional that chooses its branch anew.
-/

namespace CrossAssembler.Assembly

variable {s s' : Assembly}
variable {id : LineId} {branches : List (LineId × List Item)} {items : List Item}

theorem conditional_of_branchState {state : BranchState} (hs : s.Sound) (h : s.branchState? id = some state) :
    ∃ part, (s.line id).kind = .command part ∧ part.directive.isConditional = true := by
  unfold branchState? at h
  split at h
  · rename_i state' hstate
    obtain ⟨part, hkind, hpart⟩ := kind_of_directiveState hstate nofun
    have hsuits := hs.consistent id part hkind
    rw [hpart] at hsuits
    exact ⟨part, hkind, hsuits⟩
  · cases h

theorem not_plain_of_conditional {part : Line.CommandPart}
    (hkind : (s.line id).kind = .command part) (h : part.directive.isConditional = true) : ¬ s.Plain := by
  have hline : (s.line id).isPlain = false := by
    rw [Line.isPlain, hkind]
    simp only [h]
    rfl
  exact not_plain hline

theorem directive_of_conditional {part : Line.CommandPart}
    (hkind : (s.line id).kind = .command part) (h : part.directive.isConditional = true) :
    (s.line id).directive? ≠ some .enumeration := by
  rw [directive_of_kind hkind]
  intro heq
  rw [Option.some.inj heq] at h
  cases h

/-! ## Hiding -/

/-- Whether work changes lines that are no enumerations, and does nothing else to lines. -/
def WorksAside (s s' : Assembly) : Prop := Works (.tending fun k => (s.line k).directive? ≠ some .enumeration) s s'

theorem WorksAside.trans {s'' : Assembly} (h : WorksAside s s') (h' : WorksAside s' s'') : WorksAside s s'' := by
  refine Works.seq h fun hs hsteps => Works.mono h' (fun k hk => ?_) (fun _ h => h) (fun _ h => h) fun _ h => h
  change (s.line k).directive? ≠ some .enumeration
  rcases Nat.lt_or_ge k s.lines.size with hlt | hge
  · rw [← (hsteps.linesKept hs).directive k hlt]
    exact hk
  · rw [line_of_size_le hge]
    exact nofun

theorem WorksAside.foldl {α : Type} {f : Assembly → α → Assembly} (hf : ∀ s x, WorksAside s (f s x)) :
    ∀ (xs : List α) (s : Assembly), WorksAside s (xs.foldl f s)
  | [], s => Works.refl s
  | x :: xs, s => (hf s x).trans (foldl hf xs _)

theorem steps_hide : ∀ (labels : List LabelId) {s : Assembly}, ¬ s.Plain → Steps .still s (s.hide labels)
  | [], _, _ => .refl
  | label :: labels, s, hplain => by
    have hrest : Steps .still { s with symbols := s.symbols.unbind label }
        (hide { s with symbols := s.symbols.unbind label } labels) := steps_hide labels hplain
    exact .head (.hide label hplain) hrest

section

variable {inner : Assembly → List Item → Assembly}

theorem works_giveUp {id : LineId} {state : BranchState} {labels : List LabelId}
    (h : s.branchState? id = some state) (state' : BranchState) :
    WorksAside s ((s.setDirectiveState id (.branches state')).hide labels) := by
  refine Works.of fun hs _ => ?_
  obtain ⟨part, hkind, hconditional⟩ := conditional_of_branchState hs h
  have hown := directive_of_conditional hkind hconditional
  have hset : WorksAside s (s.setDirectiveState id (.branches state')) :=
    Works.undeclared (.single (.change (change_setBranches hown hkind hconditional))) fun _ h => h
  refine Works.seq hset fun hs' hsteps => ?_
  exact .still (steps_hide labels fun hplain =>
    not_plain_of_conditional hkind hconditional (hsteps.plain hs' hplain))

mutual

theorem works_retractItem (hinner : ∀ s items, WorksAside s (inner s items)) :
    ∀ (item : Item) (s : Assembly), WorksAside s (retractItem inner item s)
  | .line id, s => .foldl hinner _ s
  | .conditional id branches, s => by
    unfold retractItem
    split
    · exact Works.refl s
    · rename_i state hstate
      split
      · exact Works.refl s
      · rename_i index _
        exact (works_giveUp hstate _).trans (works_retractBranch hinner branches index _)

theorem works_retractItems (hinner : ∀ s items, WorksAside s (inner s items)) :
    ∀ (items : List Item) (s : Assembly), WorksAside s (retractItems inner items s)
  | [], s => Works.refl s
  | item :: items, s => (works_retractItem hinner item s).trans (works_retractItems hinner items _)

theorem works_retractBranch (hinner : ∀ s items, WorksAside s (inner s items)) :
    ∀ (branches : List (LineId × List Item)) (index : Nat) (s : Assembly),
      WorksAside s (retractBranch inner index branches s)
  | [], _, s => Works.refl s
  | branch :: _, 0, s => works_retractBody hinner branch s
  | _ :: branches, index + 1, s => works_retractBranch hinner branches index s

theorem works_retractBody (hinner : ∀ s items, WorksAside s (inner s items)) :
    ∀ (branch : LineId × List Item) (s : Assembly), WorksAside s (retractBody inner branch s)
  | (_, body), s => works_retractItems hinner body s

end

end

theorem works_retractWithin : ∀ (bound : Nat) (s : Assembly) (items : List Item),
    WorksAside s (retractWithin bound s items)
  | 0, s, _ => Works.refl s
  | bound + 1, s, items => works_retractItems (works_retractWithin bound) items s

theorem works_leaveBranch (state : BranchState) (hplain : ¬ s.Plain) :
    WorksAside s (s.leaveBranch state branches) := by
  unfold leaveBranch
  split
  · exact Works.refl s
  rename_i index _
  have hhide : WorksAside s (s.hide (state.bound.getD index [])) :=
    Works.still (steps_hide (state.bound.getD index []) hplain)
  simp only
  split
  · exact hhide.trans (works_retractWithin nestingLimit _ _)
  · exact hhide

/-! ## Choosing -/

theorem Writes.not_plain (h : Writes s s') (hplain : ¬ s.Plain) : ¬ s'.Plain := by
  intro hplain'
  refine hplain (plain_iff.mpr fun id => ?_)
  rw [← Line.isPlain_congr (h.kinds id)]
  exact plain_iff.mp hplain' id

theorem chooseBranch_cons (id : LineId) {header : LineId} (index : Nat) (headers : List LineId)
    (hheader : header < s.lines.size) :
    ∃ t, Steps .still (if header = id then s else s.beginLine header) t ∧
      Writes (if header = id then s else s.beginLine header) t ∧
      ((s.chooseBranch id index (header :: headers)).2 = t ∨
        s.chooseBranch id index (header :: headers) = t.chooseBranch id (index + 1) headers) := by
  have hbegin : header < (if header = id then s else s.beginLine header).lines.size := by
    split
    · exact hheader
    · exact (size_modifyLine s header _).symm ▸ hheader
  rw [chooseBranch]
  simp only
  generalize (if header = id then s else s.beginLine header) = t at hbegin ⊢
  have hwrites : Writes t t := .of_lines rfl rfl rfl rfl
  split
  · exact ⟨t, .refl, hwrites, .inl rfl⟩
  rename_i part _
  split
  · exact ⟨t, .refl, hwrites, .inl rfl⟩
  · split
    · exact ⟨t, .refl, hwrites, .inl rfl⟩
    · split
      · exact ⟨t, .refl, hwrites, .inl rfl⟩
      · exact ⟨t, .refl, hwrites, .inr rfl⟩
  · split
    · exact ⟨t, .refl, hwrites, .inl rfl⟩
    · split
      · exact ⟨t, .refl, hwrites, .inl rfl⟩
      · exact ⟨t, .refl, hwrites, .inr rfl⟩
  · split
    · rename_i e token _ _ _
      have hvalue := (supplies_evaluate hbegin e token).steps
      have hwritten := writes_evaluate t header e token
      split
      · rename_i value u heq
        rw [heq] at hvalue hwritten
        refine ⟨u, hvalue, hwritten, ?_⟩
        split
        · exact .inl rfl
        · exact .inr rfl
      · rename_i u _ heq
        rw [heq] at hvalue hwritten
        exact ⟨u, hvalue, hwritten, .inl rfl⟩
    · exact ⟨t, .refl, hwrites, .inl rfl⟩

/-- The dividers of a conditional are looked at in order, each once. -/
theorem visits_chooseBranch (id : LineId) :
    ∀ (headers : List LineId) (index : Nat) {s : Assembly}, s.Sound → s.Readied → ¬ s.Plain →
      (∀ header ∈ headers, header < s.lines.size) → (headers.filter (· ≠ id)).Nodup →
      ∃ ids, ids ⊆ headers.filter (· ≠ id) ∧
        Visits (· ∈ headers.filter (· ≠ id)) ids s (s.chooseBranch id index headers).2
  | [], _, _, _, hr, _, _, _ => ⟨[], List.nil_subset _, .refl hr⟩
  | header :: headers, index, s, hs, hr, hplain, hlt, hnodup => by
    obtain ⟨hheader, hheaders⟩ := List.forall_mem_cons.mp hlt
    obtain ⟨t, hsteps, hwrites, hends⟩ := chooseBranch_cons id index headers hheader
    -- the own line of the conditional has been reached before
    have hlook : ∃ first, first ⊆ (header :: headers).filter (· ≠ id) ∧ (∀ k ∈ first, k ∉ headers.filter (· ≠ id)) ∧
        Visits (· ∈ (header :: headers).filter (· ≠ id)) first s t ∧ Writes s t := by
      by_cases hown : header = id
      · rw [if_pos hown] at hsteps hwrites
        exact ⟨[], List.nil_subset _, fun _ hk => absurd hk List.not_mem_nil, .of_still hsteps hs hr, hwrites⟩
      rw [if_neg hown] at hsteps hwrites
      have hmem : header ∈ (header :: headers).filter (· ≠ id) := by simp [hown]
      rw [List.filter_cons_of_pos (by simpa using hown)] at hnodup
      have hwritten : Writes s (s.beginLine header) := writes_modifyLine s header fun _ => ⟨rfl, rfl, fun h => h⟩
      have hbegin : Visits (· = header) [header] s (s.beginLine header) :=
        .of_serving (.single (.begin header rfl hplain)) (.begin .refl header) hs hr hheader .inl
      refine ⟨[header], by simpa using hown, ?_, (hbegin.still hsteps hs).mono ?_, hwritten.trans hwrites⟩
      · simpa using (List.nodup_cons.mp hnodup).1
      · rintro k rfl
        exact hmem
    obtain ⟨first, hsub, hfresh, hfirst, hkept⟩ := hlook
    rcases hends with hends | hends
    · exact ⟨first, hsub, hends ▸ hfirst⟩
    have hnodup' : (headers.filter (· ≠ id)).Nodup :=
      hnodup.sublist ((List.sublist_cons_self header headers).filter _)
    obtain ⟨ids, hids, hvisits⟩ := visits_chooseBranch id headers (index + 1) (hfirst.sound hs) hfirst.readied
      (hkept.not_plain hplain) (fun h hh => hkept.size ▸ hheaders h hh) hnodup'
    have hincl : headers.filter (· ≠ id) ⊆ (header :: headers).filter (· ≠ id) :=
      ((List.sublist_cons_self header headers).filter _).subset
    rw [hends]
    exact ⟨first ++ ids, List.append_subset.mpr ⟨hsub, List.Subset.trans hids hincl⟩,
      hfirst.trans hvisits hs (fun k hk => .inl (hincl hk)) fun k hk hk' => absurd hk' (hfresh k hk)⟩

/-! ## Coming back -/

theorem writes_symbolError (s : Assembly) (id : LineId) (e : SymbolError) (span : Span) :
    Writes s (s.symbolError id e span) := by
  unfold symbolError
  simp only
  refine Writes.trans ?_ (writes_mark _ id .error)
  exact .of_lines rfl rfl rfl rfl

theorem steps_showAgain : ∀ (labels : List LabelId) {s : Assembly}, ¬ s.Plain → Steps .still s (s.showAgain id labels)
  | [], _, _ => .refl
  | label :: labels, s, hplain => by
    unfold showAgain
    rw [List.foldl_cons]
    split
    · rename_i symbols hrebind
      have hrest : Steps .still { s with symbols } (showAgain { s with symbols } id labels) :=
        steps_showAgain labels hplain
      exact .head (.unhide hrebind hplain) hrest
    · rename_i e _
      have herror : Steps .still s (s.symbolError id e (s.symbols.label label).token.span) :=
        .of_changes (changes_symbolError s id e _)
      exact herror.trans (steps_showAgain labels ((writes_symbolError s id e _).not_plain hplain))

theorem not_plain_of_lines (hlines : s'.lines = s.lines) (hplain : ¬ s.Plain) : ¬ s'.Plain := by
  unfold Plain at hplain ⊢
  rw [hlines]
  exact hplain

theorem works_analyze {own : LineId → Prop} (h : Ready own s items)
    (hnodup : (items.map Item.id).Nodup) : Works (.inside own s.lines.size) s (s.analyze items) := by
  intro hs hr
  have hregion := h.region fun _ => True
  have hchanges : Changes (.inside own s.lines.size) s (s.analyze items) :=
    Runs.analyze _ s items (fun id hid => ⟨h.fresh id hid, h.fresh id hid, hid⟩)
      (fun item hitem => (h.proper item hitem).id.1) h.proper hs ⟨hregion.room, hregion.below⟩
  exact ⟨.of_changes hchanges, readied_analyze h hnodup hr⟩

theorem Ready.of_under (hs : s.Sound) (hplain : ¬ s.Plain) (hitems : ∀ item ∈ items, item.Proper (· < s.lines.size)) :
    Ready (fun k => s.Under (Item.allLines items) k ∨ s.lines.size ≤ k) s items where
  sound := hs
  region _ := by
    refine ⟨fun _ _ _ hp => absurd hp hplain, fun id hid inner hinner item hitem => ?_⟩
    refine (hs.below id inner hinner item hitem).of_lines fun k hk => ?_
    rcases hid with ⟨i, hi, hbelow⟩ | hid
    · exact .inl ⟨i, hi, hbelow.tail (mem_lineIds.mpr ⟨inner, hinner, item, hitem, hk⟩)⟩
    · rw [line_of_size_le hid] at hinner
      cases hinner
  fresh _ hid := .inr hid
  proper item hitem := (hitems item hitem).of_lines fun k hk =>
    ⟨.inl (.of_mem (Item.mem_allLines.mpr ⟨item, hitem, hk⟩)), (hitems item hitem).mem_lines k hk⟩

theorem visits_analyzeRecording (hs : s.Sound) (hr : s.Readied) (hplain : ¬ s.Plain)
    (hitems : ∀ item ∈ items, item.Proper (· < s.lines.size)) (hnodup : (items.map Item.id).Nodup) :
    Visits (s.Under (Item.allLines items)) [] s (s.analyzeRecording items).2 := by
  have hstart : Works (.inside (fun k => s.Under (Item.allLines items) k ∨ s.lines.size ≤ k) s.lines.size) s
      { s with recorders := [] :: s.recorders } :=
    .aside (.around rfl rfl rfl rfl rfl rfl rfl rfl rfl rfl fun h => h)
  have hanalyze := hstart.seq fun _ hsteps => works_analyze
    (Ready.of_under (hsteps.sound hs) (not_plain_of_lines rfl hplain) hitems) hnodup
  refine Visits.of_works (?_ : Works (.inside _ s.lines.size) _ _) hs hr (fun _ h => h)
    (fun i k hi hk => ⟨hi, hk.2⟩) fun k hk hchange => .inl (hchange.resolve_right (Nat.not_le_of_lt hk))
  unfold analyzeRecording
  simp only
  split
  · exact hanalyze.trans (.aside (.around rfl rfl rfl rfl rfl rfl rfl rfl rfl rfl fun h => h))
  · exact hanalyze

theorem visits_enterBranch (id : LineId) (state : BranchState) (index : Nat) {body : List Item}
    (hs : s.Sound) (hr : s.Readied) (hplain : ¬ s.Plain)
    (hitems : ∀ item ∈ body, item.Proper (· < s.lines.size)) (hnodup : (body.map Item.id).Nodup) :
    Visits (s.Under (Item.allLines body)) [] s (s.enterBranch id state index body).2 := by
  unfold enterBranch
  split
  · exact .of_still (steps_showAgain _ hplain) hs hr
  · exact visits_analyzeRecording hs hr hplain hitems hnodup

/-- The lines of a branch with a number. -/
def bodyAt (branches : List (LineId × List Item)) (index : Nat) : List Item :=
  ((branches[index]?).map fun b => b.2).getD []

theorem proper_bodyAt {P : LineId → Prop} (h : (Item.conditional id branches).Proper P) (index : Nat) :
    (∀ item ∈ bodyAt branches index, item.Proper P) ∧ ((bodyAt branches index).map Item.id).Nodup := by
  unfold bodyAt
  cases hbranch : branches[index]? with
  | none => exact ⟨nofun, .nil⟩
  | some b =>
    have hmem := List.mem_of_getElem? hbranch
    cases h with
    | conditional _ _ hnodup hitems => exact ⟨hitems b hmem, hnodup b hmem⟩

theorem bodyAt_sublist (id : LineId) : ∀ (branches : List (LineId × List Item)) (index : Nat),
    (Item.allLines (bodyAt branches index)).Sublist (Item.branchLines id branches)
  | [], _ => .slnil
  | (header, body) :: branches, 0 => by
    rw [Item.branchLines, Item.bodyLines]
    exact (List.sublist_append_right _ _).trans (List.sublist_append_left _ _)
  | _ :: branches, index + 1 => by
    rw [Item.branchLines]
    exact (bodyAt_sublist id branches index).trans (List.sublist_append_right _ _)

/-- The dividers of the other branches of a conditional. -/
def dividers (id : LineId) (branches : List (LineId × List Item)) : List LineId :=
  (branches.map fun b => b.1).filter (· ≠ id)

theorem dividers_sublist (id : LineId) : ∀ branches : List (LineId × List Item),
    (dividers id branches).Sublist (Item.branchLines id branches)
  | [] => .slnil
  | (header, body) :: branches => by
    have hrest := dividers_sublist id branches
    rw [Item.branchLines, Item.bodyLines, dividers, List.map_cons, List.append_assoc]
    have hlater : (dividers id branches).Sublist (Item.allLines body ++ Item.branchLines id branches) :=
      hrest.trans (List.sublist_append_right _ _)
    by_cases hown : header = id
    · rw [List.filter_cons_of_neg (by simpa using hown), if_pos hown, List.nil_append]
      exact hlater
    · rw [List.filter_cons_of_pos (by simpa using hown), if_neg hown]
      exact hlater.cons_cons header

theorem notMem_bodyAt_of_divider {k : LineId} : ∀ (branches : List (LineId × List Item)) (index : Nat),
    (Item.branchLines id branches).Nodup → k ∈ dividers id branches → k ∉ Item.allLines (bodyAt branches index)
  | [], _, _, hk => absurd hk List.not_mem_nil
  | (header, body) :: branches, index, hnodup, hk => by
    rw [Item.branchLines, Item.bodyLines] at hnodup
    obtain ⟨hfirst, hrest, hdisjoint⟩ := List.nodup_append.mp hnodup
    have hheader : k = header → header ≠ id → k ∈ (if header = id then [] else [header]) := by
      intro heq hne
      rw [if_neg hne, heq]
      exact List.mem_singleton_self header
    have hcases : (k = header ∧ header ≠ id) ∨ k ∈ dividers id branches := by
      unfold dividers at hk ⊢
      grind
    cases index with
    | zero =>
      intro hbody
      rcases hcases with ⟨heq, hne⟩ | hk
      · exact (List.nodup_append.mp hfirst).2.2 k (hheader heq hne) k hbody rfl
      · exact hdisjoint k (List.mem_append_right _ hbody) k ((dividers_sublist id branches).subset hk) rfl
    | succ index =>
      intro hbody
      have hlater : k ∈ Item.branchLines id branches := (bodyAt_sublist id branches index).subset hbody
      rcases hcases with ⟨heq, hne⟩ | hk
      · exact hdisjoint k (List.mem_append_left _ (hheader heq hne)) k hlater rfl
      · exact notMem_bodyAt_of_divider branches index hrest hk hbody

/-- A conditional and its dividers stand under no branch. -/
theorem Adds.not_under_bodyAt {own : LineId → Prop} {k : LineId}
    {index : Nat} (h : Adds own s s') (hs' : s'.Sound) (hapart : s.Apart (id :: Item.branchLines id branches))
    (hroots : ∀ i ∈ id :: Item.branchLines id branches, i < s.lines.size) (hk : k ∈ id :: dividers id branches) :
    ¬ s'.Under (Item.allLines (bodyAt branches index)) k := by
  intro hunder
  have hsub := (bodyAt_sublist id branches index).subset
  have hnodup := List.nodup_cons.mp hapart.nodup
  have hmem := List.cons_subset_cons id (dividers_sublist id branches).subset hk
  obtain ⟨i, hi, hbelow⟩ := (h.under_or_new hs' hunder).resolve_right (Nat.not_le_of_lt (hroots k hmem))
  have heq := hapart.eq_of_below i (List.mem_cons_of_mem id (hsub hi)) k hmem hbelow
  rw [heq] at hi
  rcases List.mem_cons.mp hk with rfl | hk
  · exact hnodup.1 (hsub hi)
  · exact notMem_bodyAt_of_divider branches index hnodup.2 hk hi

/-- A conditional chooses its branch anew. It looks at dividers, and analyses the branch if it has not been
chosen before. -/
theorem visits_switchBranch (hs : s.Sound) (hr : s.Readied)
    (hitem : (Item.conditional id branches).Proper (· < s.lines.size))
    (hapart : s.Apart (id :: Item.branchLines id branches)) :
    ∃ ids, ids ⊆ dividers id branches ∧
      Visits (s.Under (Item.branchLines id branches)) ids s (s.switchBranch id branches).2 := by
  unfold switchBranch
  split
  · exact ⟨[], List.nil_subset _, .refl hr⟩
  rename_i state hstate
  obtain ⟨part, hkind, hconditional⟩ := conditional_of_branchState hs hstate
  have hplain := not_plain_of_conditional hkind hconditional
  -- the conditional stays what it is, so it can keep its branches at the end
  have hset : ∀ {ids : List LineId} {t : Assembly} (st : BranchState),
      Visits (s.Under (Item.branchLines id branches)) ids s t →
      Visits (s.Under (Item.branchLines id branches)) ids s (t.setDirectiveState id (.branches st)) := by
    intro ids t st h
    obtain ⟨part', hkind', hdirective⟩ := (h.steps.linesKept hs).exists_command hitem.id hkind
    rw [← hdirective] at hconditional
    have hworks : WorksAside t (t.setDirectiveState id (.branches st)) := Works.undeclared (.single
      (.change (change_setBranches (directive_of_conditional hkind' hconditional) hkind' hconditional))) fun _ h => h
    exact h.tended hworks hs fun _ hk => hk
  have hleave : Visits (s.Under (Item.branchLines id branches)) [] s (s.leaveBranch state branches) :=
    .of_tending (works_leaveBranch state hplain) hs hr fun _ _ => .inr
  simp only
  generalize s.leaveBranch state branches = t at hleave ⊢
  have hplain' : ¬ t.Plain := fun h => hplain (hleave.steps.plain hs h)
  have hheaders : ∀ header ∈ branches.map fun b => b.1, header < t.lines.size := by
    intro header hheader
    obtain ⟨b, hb, rfl⟩ := List.mem_map.mp hheader
    cases hitem with
    | conditional _ h => exact Nat.lt_of_lt_of_le (h b hb) hleave.steps.size_le
  have hdividers : (dividers id branches).Nodup :=
    (List.nodup_cons.mp hapart.nodup).2.sublist (dividers_sublist id branches)
  obtain ⟨ids, hids, hchoose⟩ := visits_chooseBranch id (branches.map Prod.fst) 0
    (hleave.sound hs) hleave.readied hplain' hheaders hdividers
  have hchosen : ∀ {r : Option Nat} {u : Assembly}, t.chooseBranch id 0 (branches.map fun b => b.1) = (r, u) →
      Visits (s.Under (Item.branchLines id branches)) ids s u := fun heq =>
    hleave.trans (hchoose.result heq) hs
      (fun k hk => .inl (.of_mem ((dividers_sublist id branches).subset hk))) fun _ hk => absurd hk List.not_mem_nil
  refine ⟨ids, hids, ?_⟩
  split
  · rename_i u heq
    exact hset _ (hchosen heq)
  rename_i index u heq
  have hso_far := hchosen heq
  obtain ⟨hbody, hdistinct⟩ := proper_bodyAt hitem index
  have hbody' : ∀ item ∈ bodyAt branches index, item.Proper (· < u.lines.size) := fun item h =>
    (hbody item h).mono fun _ hid => Nat.lt_of_lt_of_le hid hso_far.steps.size_le
  have hplain'' : ¬ u.Plain := fun h => hplain (hso_far.steps.plain hs h)
  have henter := visits_enterBranch id { state with active := none } index (hso_far.sound hs)
    hso_far.readied hplain'' hbody' hdistinct
  refine hset _ (List.append_nil ids ▸ hso_far.trans henter hs (fun k hk => ?_) fun k hk hk' => absurd hk' ?_)
  · exact (hso_far.adds.under_or_new (hso_far.sound hs) hk).imp_left fun h =>
      h.subset (bodyAt_sublist id branches index).subset
  · refine hso_far.adds.not_under_bodyAt (hso_far.sound hs) hapart (fun i hi => hitem.mem_lines i ?_)
      (List.mem_cons_of_mem id (hids hk))
    rw [Item.lines]
    exact hi

end CrossAssembler.Assembly
