import CrossAssembler.Proofs.Assembly.Branches
import CrossAssembler.Proofs.Assembly.Layout

/-!
# Compiling goes in steps

* `visits_compileRepetition`, `visits_compileInclude`, `visits_compileCall` — the lines below a line.
* `visits_compileLine` — a line by what it is.
* `visits_compileItems` — lines in order, through the branches of conditionals.

Principal result: `compiles_compileWithin` — compiling lines visits them and those below them, each once, at
any depth.
-/

namespace CrossAssembler.Assembly

variable {s s' : Assembly} {inner calls files : Assembly → List Item → Flow × Assembly}
variable {parent : ScopeId} {id : LineId} {lists iterations : List (List Item)} {n : Nat}
variable {part : Line.CommandPart}

/-- Whether a function compiles lines that stand apart, and with them only lines below them, each once. -/
def Compiles (inner : Assembly → List Item → Flow × Assembly) : Prop :=
  ∀ s items, s.Sound → s.Readied → (∀ item ∈ items, item.Proper (· < s.lines.size)) →
    s.Apart (Item.allLines items) → ∃ ids, Visits (s.Under (Item.allLines items)) ids s (inner s items).2

/-! ## Repetitions -/

theorem addIteration_eq (body : List LineId) (hs : s.Sound) (hparent : parent < s.symbols.scopes.size) :
    ∃ t items, Changes (.undeclared s.lines.size) s t ∧ NewItems s t items ∧
      s.addIteration parent body = (items, t.analyze items) := by
  unfold addIteration
  simp only
  obtain ⟨hscope, hroom, hlt⟩ := (change_addScope hs .iteration (s.symbols.scope parent).source hparent :
    Change (.undeclared s.lines.size) s _ ∧ _)
  generalize (s.symbols.addScope .iteration parent (s.symbols.scope parent).source).1 = scope at hroom hlt ⊢
  generalize (s.symbols.addScope .iteration parent (s.symbols.scope parent).source).2 = symbols at hscope hroom hlt ⊢
  have hcopied : Added (.undeclared s.lines.size) { s with symbols } _ _ :=
    added_instantiate body (hscope.sound hs) hlt hroom
  obtain ⟨harrange, hitems⟩ := hcopied.arrange (hscope.sound hs)
  exact ⟨_, _, .head hscope harrange, ⟨hitems.distinct, hitems.proper⟩, rfl⟩

theorem changes_addIteration (body : List LineId) (hs : s.Sound) (hparent : parent < s.symbols.scopes.size) :
    Changes (.from s.lines.size) s (s.addIteration parent body).2 := by
  obtain ⟨t, items, hrun, hitems, heq⟩ := addIteration_eq body hs hparent
  rw [heq]
  exact hrun.declaring.trans (Runs.analyze.changes hs hrun hitems)

theorem Grows.later (h : s.Grows id lists) (hs : s.Sound)
    (hmade : Made s lists) (hrun : Changes (.from s.lines.size) s s') : s'.Grows id lists := by
  refine ⟨h.1, fun k hk => ⟨(h.2 k hk).1, fun owner hheld => ?_⟩⟩
  obtain ⟨items, hitems, item, hitem, hmem⟩ := mem_lineIds.mp hk
  rcases hrun.attaches hs hheld with hold | hnew
  · exact (h.2 _ hk).2 owner hold
  · exact Nat.not_le_of_lt ((hmade items hitems item hitem).mem_lines k hmem) hnew.1.1

theorem Grows.cons {items : List Item} (h : s.Grows id [items])
    (h' : s.Grows id lists) (hdisjoint : ∀ k ∈ lineIds [items], k ∉ lineIds lists) :
    s.Grows id (items :: lists) := by
  have happend : lineIds (items :: lists) = lineIds [items] ++ lineIds lists := by
    simp [lineIds, Item.allLines_append]
  refine ⟨?_, fun k hk => ?_⟩
  · rw [happend, List.nodup_append]
    refine ⟨h.1, h'.1, fun k hk j hj heq => ?_⟩
    exact hdisjoint k hk (heq ▸ hj)
  · rw [happend] at hk
    exact (List.mem_append.mp hk).elim (h.2 k) (h'.2 k)

theorem Grows.reverse (h : s.Grows id lists) : s.Grows id lists.reverse := by
  have hperm : (lineIds lists.reverse).Perm (lineIds lists) := by
    simp only [lineIds, Item.allLines_eq]
    exact (List.reverse_perm lists).flatten.flatMap_right _
  exact ⟨hperm.nodup_iff.mpr h.1, fun k hk => h.2 k (hperm.mem_iff.mp hk)⟩

theorem works_addIteration (body : List LineId) (hparent : parent < s.symbols.scopes.size) :
    Works (.from s.lines.size) s (s.addIteration parent body).2 := by
  intro hs hr
  refine ⟨.of_changes (changes_addIteration body hs hparent), ?_⟩
  obtain ⟨t, items, hrun, hitems, heq⟩ := addIteration_eq body hs hparent
  rw [heq]
  exact readied_analyze (.of_new hs hrun hitems) hitems.nodup ((Steps.of_changes hrun).readied (fun _ h => h) hs hr)

/-- Whether iterations consist of lines from a number on and can be put below a line. -/
structure Iterated (n : Nat) (id : LineId) (s : Assembly) (iterations : List (List Item)) : Prop where
  proper : ∀ items ∈ iterations, ∀ item ∈ items, item.Proper fun j => n ≤ j ∧ j < s.lines.size
  grows : s.Grows id iterations

theorem Iterated.made (h : Iterated n id s iterations) : Made s iterations :=
  fun items hitems item hitem => (h.proper items hitems item hitem).mono fun _ hj => hj.2

theorem Iterated.add (h : Iterated n id s iterations) (body : List LineId) (hs : s.Sound)
    (hparent : parent < s.symbols.scopes.size) (hid : id < s.lines.size) (hn : n ≤ s.lines.size) :
    Iterated n id (s.addIteration parent body).2 ((s.addIteration parent body).1 :: iterations) := by
  have hle := (changes_addIteration body hs hparent).size_le
  have hold := h.grows.later hs h.made (changes_addIteration body hs hparent)
  obtain ⟨t, items, hrun, hitems, heq⟩ := addIteration_eq body hs hparent
  have hbetween := Runs.analyze.between hs hrun hitems
  rw [heq] at hle hold ⊢
  refine ⟨List.forall_mem_cons.mpr ⟨fun item hitem => ?_, fun others hothers item hitem => ?_⟩,
    (hitems.grows hs hrun hbetween hid).cons hold fun k hk hin => ?_⟩
  · exact (hitems.proper item hitem).mono fun j hj =>
      ⟨Nat.le_trans hn hj.1, Nat.lt_of_lt_of_le hj.2 hbetween.size_le⟩
  · exact (h.proper others hothers item hitem).mono fun j hj => ⟨hj.1, Nat.lt_of_lt_of_le hj.2 hle⟩
  · -- the new lines come after those of earlier iterations
    obtain ⟨_, hnew, item, hitem, hk⟩ := mem_lineIds.mp hk
    rw [List.mem_singleton.mp hnew] at hitem
    obtain ⟨others, hothers, other, hother, hin⟩ := mem_lineIds.mp hin
    have hlt := ((h.proper others hothers other hother).mem_lines k hin).2
    exact Nat.not_le_of_lt hlt ((hitems.proper item hitem).mem_lines k hk).1

theorem Works.from_le {m : Nat} (h : Works (.from m) s s') (hle : n ≤ m) : Works (.from n) s s' := by
  refine h.mono ?_ ?_ ?_ ?_
  · exact fun _ hid => Nat.le_trans hle hid
  · exact fun _ hid => Nat.le_trans hle hid
  · exact fun _ hid => ⟨Nat.le_trans hle hid.1, Nat.le_trans hle hid.2⟩
  · exact fun _ hid => hid

theorem works_addIterations (body : List LineId) :
    ∀ (counters : List Nat) {iterations : List (List Item)} {s : Assembly}, s.Sound →
      parent < s.symbols.scopes.size → id < s.lines.size → n ≤ s.lines.size → Iterated n id s iterations →
      let r := counters.foldl (fun (iterations, s) _ =>
        let (items, s) := addIteration s parent body
        (items :: iterations, s)) (iterations, s)
      Works (.from n) s r.2 ∧ Iterated n id r.2 r.1
  | [], _, s, _, _, _, _, h => ⟨.refl s, h⟩
  | _ :: counters, iterations, s, hs, hparent, hid, hn, h => by
    have hrun := changes_addIteration body hs hparent
    obtain ⟨hworks, hall⟩ := works_addIterations body counters (hrun.sound hs)
      (Nat.lt_of_lt_of_le hparent (hrun.scopes_le hs)) (Nat.lt_of_lt_of_le hid hrun.size_le)
      (Nat.le_trans hn hrun.size_le) (h.add body hs hparent hid hn)
    exact ⟨((works_addIteration body hparent).from_le hn).trans hworks, hall⟩

theorem works_iterate (part : Line.CommandPart) (count : Nat) (hs : s.Sound) (hid : id < s.lines.size) :
    Works (.from s.lines.size) s (s.iterate id part count).2 ∧
      Iterated s.lines.size id (s.iterate id part count).2 (s.iterate id part count).1 := by
  have hdeepen : Change .still s s.openCall := .nest ..
  have hnone : Iterated s.lines.size id s.openCall [] := ⟨nofun, grows_nil _ id⟩
  obtain ⟨hworks, hiterated⟩ := works_addIterations (part.body.getD []) (List.range count)
    (hdeepen.sound hs) (hs.placed id hid) hid (Nat.le_refl _) hnone
  unfold iterate
  simp only
  refine ⟨((Works.aside hdeepen).trans hworks).trans (.aside (.nest ..)),
    fun items hitems => ?_, hiterated.grows.reverse⟩
  exact hiterated.proper items (List.mem_reverse.mp hitems)

theorem change_setRepetition {may : Permit} {state : DirectiveState}
    (hown : may.change id) (hkind : (s.line id).kind = .command part)
    (hdirective : part.directive = .repetition)
    (hstate : state = .none ∨ ∃ iterations, state = .repeated iterations)
    (hattach : ∀ items ∈ stateBelow state, ∀ item ∈ items, item.Proper fun j => may.attach j ∧ j < s.lines.size)
    (hgrows : s.Grows id (stateBelow state)) : Change may s (s.setDirectiveState id state) := by
  have hinner : (s.line id).inner = [] :=
    Line.inner_command hkind (.inl (by rw [hdirective]; decide))
  have hother : (s.line id).isData = false := by
    rw [Line.isData, directive_of_kind hkind, hdirective]
    rfl
  refine change_setDirectiveState hown ?_ ?_ ?_ ?_ (Line.not_holds hother) hattach hgrows
    (.inr ⟨hinner, fun _ _ => .inl ?_⟩)
  · rcases hstate with rfl | ⟨_, rfl⟩ <;> simp
  · rcases hstate with rfl | ⟨_, rfl⟩ <;> simp
  · rcases hstate with rfl | ⟨_, rfl⟩ <;> exact claims_of_state (by simp) (by simp)
  · rcases hstate with rfl | ⟨_, rfl⟩ <;> exact fun _ _ => trivial
  · rcases hstate with rfl | ⟨_, rfl⟩ <;> exact isRead_of_state (by simp) (by simp)

theorem linesBelow_setDirectiveState (hid : id < s.lines.size)
    (hkind : (s.line id).kind = .command part) (state : DirectiveState) :
    linesBelow ((s.setDirectiveState id state).line id) = stateBelow state := by
  rw [setDirectiveState, line_modifyLine, if_pos ⟨rfl, hid⟩, kind_modifyCommand hkind, linesBelow_command rfl]

theorem visits_keepIterations (hs : s.Sound) (hr : s.Readied)
    (hid : id < s.lines.size) (hkind : (s.line id).kind = .command part)
    (hdirective : part.directive = .repetition) (count : Nat) :
    Visits (· = id) [] s ((s.iterate id part count).2.setDirectiveState id
        (.repeated (some (s.iterate id part count).1))) ∧
      linesBelow (((s.iterate id part count).2.setDirectiveState id
        (.repeated (some (s.iterate id part count).1))).line id) = (s.iterate id part count).1 := by
  obtain ⟨hworks, hiterated⟩ := works_iterate part count hs hid
  generalize s.iterate id part count = made at hworks hiterated ⊢
  obtain ⟨hsteps, hread⟩ := hworks hs hr
  have hkind' := (hsteps.kind_eq hs hid (Nat.not_le_of_lt hid)).trans hkind
  have hset : ∀ {may : Permit}, may.change id → (∀ j, s.lines.size ≤ j → may.attach j) →
      Change may made.2 (made.2.setDirectiveState id (.repeated (some made.1))) :=
    fun hown hattach => change_setRepetition hown hkind' hdirective (.inr ⟨_, rfl⟩)
      (fun items hitems item hitem => (hiterated.proper items hitems item hitem).mono fun j hj =>
        ⟨hattach j hj.1, hj.2⟩) hiterated.grows
  have hkeep : Works (.inside (fun k => k = id ∨ s.lines.size ≤ k) s.lines.size) s
      (made.2.setDirectiveState id (.repeated (some made.1))) := by
    intro _ _
    refine ⟨(hsteps.mono ?_ ?_ ?_ ?_).tail (.change (hset (.inl rfl) fun j hj => ⟨.inr hj, hj⟩)), ?_⟩
    · exact fun _ hj => .inr hj
    · exact fun _ hj => .inr hj
    · exact fun _ hj => ⟨.inr hj.1, hj.2⟩
    · exact fun _ hj => hj
    · exact (Step.change (hset trivial fun _ _ => trivial) : Step .quiet _ _).readied (fun _ h => h)
        (hsteps.sound hs) hread
  exact ⟨.of_works hkeep hs hr (fun _ h => h) (fun i k hi hk => ⟨hi, hk.2⟩)
      fun k hk hchange => .inl (hchange.resolve_right (Nat.not_le_of_lt hk)),
    linesBelow_setDirectiveState (Nat.lt_of_lt_of_le hid hsteps.size_le) hkind' _⟩

theorem lineIds_cons (items : List Item) (lists : List (List Item)) :
    lineIds (items :: lists) = Item.allLines items ++ lineIds lists := by
  rw [lineIds, List.flatten_cons, Item.allLines_append]
  rfl

theorem lineIds_singleton (items : List Item) : lineIds [items] = Item.allLines items := by
  rw [lineIds_cons]
  exact List.append_nil _

theorem Made.lt_of_mem (h : Made s lists) {k : LineId} (hk : k ∈ lineIds lists) : k < s.lines.size := by
  obtain ⟨items, hitems, item, hitem, hk⟩ := mem_lineIds.mp hk
  exact (h items hitems item hitem).mem_lines k hk

theorem visits_compileIterations (hinner : Compiles inner) :
    ∀ (iterations : List (List Item)) {s : Assembly}, s.Sound → s.Readied → Made s iterations →
      s.Apart (lineIds iterations) →
      ∃ ids, Visits (s.Under (lineIds iterations)) ids s (compileIterations inner s iterations)
  | [], s, _, hr, _, _ => ⟨[], .refl hr⟩
  | items :: rest, s, hs, hr, hmade, hapart => by
    obtain ⟨hitems, hrest⟩ := List.forall_mem_cons.mp hmade
    rw [lineIds_cons] at hapart ⊢
    obtain ⟨ids, hfirst⟩ := hinner s items hs hr hitems (hapart.sublist (List.sublist_append_left _ _))
    unfold compileIterations
    split
    · rename_i t heq
      exact ⟨ids, (hfirst.result heq).mono fun k hk => hk.subset (List.subset_append_left _ _)⟩
    rename_i t heq
    replace hfirst := hfirst.result heq
    have hroots : ∀ i ∈ lineIds rest, i < s.lines.size := fun i hi => Made.lt_of_mem hrest hi
    obtain ⟨ids', hlater⟩ := visits_compileIterations hinner rest (hfirst.sound hs) hfirst.readied
      (Made.mono hrest hfirst.steps.size_le)
      (hfirst.adds.apart (hfirst.sound hs) hroots (hapart.sublist (List.sublist_append_right _ _)))
    exact ⟨ids ++ ids', hfirst.sequel hlater hs hapart hroots⟩

theorem visits_runIterations (hinner : Compiles inner)
    (hs : s.Sound) (hr : s.Readied) (hbelow : linesBelow (s.line id) = iterations) :
    ∃ ids, Visits (s.Under (s.held (some id))) ids s (compileIterations inner s.openCall iterations).closeCall := by
  have hdeepen : Change .still s s.openCall := .nest ..
  have hheld : s.held (some id) = lineIds iterations := congrArg lineIds hbelow
  have hapart : s.Apart (lineIds iterations) := hheld ▸ apart_held hs (some id)
  obtain ⟨ids, hvisits⟩ := visits_compileIterations hinner iterations (hdeepen.sound hs)
    (Step.readied (.change hdeepen) (fun _ h => h) hs hr)
    (fun items hitems => hs.below id items (hbelow ▸ hitems)) ⟨hapart.nodup, hapart.eq_of_below⟩
  rw [hheld]
  exact ⟨ids, hvisits.between hs hr hdeepen (.nest ..)⟩

theorem visits_compileRepetition (hinner : Compiles inner) (hs : s.Sound) (hr : s.Readied) (hid : id < s.lines.size)
    (hkind : ((s.enterLine id).line id).kind = .command part) (hdirective : part.directive = .repetition) :
    ∃ ids, Visits (s.Under [id]) ids s (compileRepetition inner (s.enterLine id) id part) := by
  have henter := Visits.enterLine hs hr hid
  have hown : ∀ k, k = id → s.Under [id] k := fun k hk => .of_mem (List.mem_singleton.mpr hk)
  generalize s.enterLine id = t at henter hkind ⊢
  have hs' := henter.sound hs
  have hid' := Nat.lt_of_lt_of_le hid henter.steps.size_le
  have hcount := steps_argumentWord hid' 0
  have hother : ∀ {u : Assembly}, (u.line id).kind = .command part → (u.line id).directive? ≠ some .enumeration := by
    intro u hkind
    rw [directive_of_kind hkind, hdirective]
    decide
  -- a state without iterations holds no lines
  have hdrop : ∀ {u : Assembly} {state : DirectiveState}, Steps .still t u →
      (state = .none ∨ state = .repeated none) → ∃ ids, Visits (s.Under [id]) ids s (u.setDirectiveState id state) := by
    intro u state hsteps hstate
    have hkind' := (hsteps.kind_eq hs' hid' fun h => h).trans hkind
    have hbelow : stateBelow state = [] := by rcases hstate with rfl | rfl <;> rfl
    have hset : Works (.tending (· = id)) t (u.setDirectiveState id state) := by
      refine .undeclared (hsteps.of_still.tail (.change ?_)) fun _ h => h
      refine change_setRepetition rfl hkind' hdirective ?_ ?_ ?_
      · exact hstate.imp_right fun h => ⟨none, h⟩
      · rw [hbelow]
        exact nofun
      · rw [hbelow]
        exact grows_nil u id
    exact ⟨_, (henter.tended hset hs fun k hk => hk ▸ hother hkind).mono hown⟩
  unfold compileRepetition
  simp only
  split
  · rename_i iterations hstate
    have hbelow : linesBelow (t.line id) = iterations := by
      rw [linesBelow_command hkind, hstate]
      rfl
    obtain ⟨ids, hrun⟩ := visits_runIterations hinner hs' henter.readied hbelow
    exact ⟨_, henter.descend hrun hs⟩
  split
  · rename_i count u heq
    rw [heq] at hcount
    split
    · exact hdrop (hcount.trans (steps_fail u id _ _)) (.inl rfl)
    split
    · exact hdrop (hcount.trans (steps_fail u id _ _)) (.inl rfl)
    have hcounted := henter.still hcount hs
    have hkind' := (hcount.kind_eq hs' hid' fun h => h).trans hkind
    obtain ⟨hkeep, hbelow⟩ := visits_keepIterations (hcounted.sound hs) hcounted.readied
      (Nat.lt_of_lt_of_le hid hcounted.steps.size_le) hkind' hdirective count.toInt.toNat
    have hkept := hcounted.trans hkeep hs (fun _ => .inl) fun k _ hk =>
      ⟨List.not_mem_nil, hk ▸ hother hkind'⟩
    obtain ⟨ids, hrun⟩ := visits_runIterations hinner (hkept.sound hs) hkept.readied hbelow
    exact ⟨_, hkept.descend hrun hs⟩
  · rename_i u _ heq
    rw [heq] at hcount
    exact hdrop hcount (.inr rfl)

/-! ## Included files and calls -/

theorem visits_held (hinner : Compiles inner) {items : List Item} {t : Assembly} (hs : s.Sound)
    (hr : s.Readied) (hbelow : linesBelow (s.line id) = [items]) (hchange : Change .still s t)
    (hlines : t.lines = s.lines) :
    ∃ ids, Visits (s.Under (s.held (some id))) ids t (inner t items).2 := by
  have hheld : ∀ i, t.held (some i) = s.held (some i) := by
    intro i
    rw [held_some, held_some, line, hlines]
    rfl
  have hunder : t.Under = s.Under := by
    unfold Under Below
    simp only [hheld]
  have hown : t.held (some id) = Item.allLines items := by
    rw [hheld, held_some, hbelow, lineIds_singleton]
  have hitems : ∀ item ∈ items, item.Proper (· < t.lines.size) := by
    rw [hlines]
    exact hs.below id items (hbelow ▸ List.mem_singleton_self items)
  have hs' := hchange.sound hs
  obtain ⟨ids, hrun⟩ := hinner t items hs' (Step.readied (.change hchange) (fun _ h => h) hs hr) hitems
    (hown ▸ apart_held hs' (some id))
  rw [← hheld, hown, ← hunder]
  exact ⟨ids, hrun⟩

theorem visits_compileInclude (hinner : Compiles inner) (hs : s.Sound) (hr : s.Readied) (hid : id < s.lines.size)
    (hkind : ((s.enterLine id).line id).kind = .command part) :
    ∃ ids, Visits (s.Under [id]) ids s (compileInclude inner (s.enterLine id) part) := by
  have henter := Visits.enterLine hs hr hid
  generalize s.enterLine id = t at henter hkind ⊢
  unfold compileInclude
  split
  · rename_i path items hstate
    have hbelow : linesBelow (t.line id) = [items] := by
      rw [linesBelow_command hkind, hstate]
      rfl
    have hopen : Change .still t (t.openFile path) := .nest ..
    obtain ⟨ids, hrun⟩ := visits_held hinner (henter.sound hs) henter.readied hbelow hopen rfl
    exact ⟨_, henter.descend (hrun.between (henter.sound hs) henter.readied hopen (.nest ..)) hs⟩
  · exact ⟨_, henter.mono fun k hk => .of_mem (List.mem_singleton.mpr hk)⟩

theorem steps_passArguments :
    ∀ (arguments : List ((Token × Option Expression) × LabelId)) {s : Assembly}, s.Sound → id < s.lines.size →
      ((∀ a ∈ arguments, a.1.2 ≠ none) ∨ s.Failed) → (∀ a ∈ arguments, s.Free a.2) →
      Steps .still s (s.passArguments id arguments)
  | [], _, _, _, _, _ => .refl
  | ((token, some e), label) :: rest, s, hs, hid, hread, hfree => by
    obtain ⟨hfirst, hrest⟩ := List.forall_mem_cons.mp hfree
    have hvalue := supplies_evaluate hid e token
    have hset : Steps .still s ((s.evaluate id e token).2.setLabelValue label (s.evaluate id e token).1.value?) :=
      hvalue.steps.tail (.change (.assign label _ hvalue.reported (.inl (hfirst.later (later_evaluate s id e token)))))
    refine hset.trans (steps_passArguments rest (hset.sound hs) (Nat.lt_of_lt_of_le hid hset.size_le) ?_
      fun a ha => (hrest a ha).later (hset.later hs))
    exact hread.imp (fun h a ha => h a (List.mem_cons_of_mem _ ha)) hset.failed
  | ((_, none), label) :: rest, s, hs, hid, hread, hfree => by
    obtain ⟨hfirst, hrest⟩ := List.forall_mem_cons.mp hfree
    have hfailed : s.Failed := hread.resolve_left fun h => h _ List.mem_cons_self rfl
    have hset : Steps .still s (s.setLabelValue label none) :=
      .single (.change (.assign label none (fun _ _ => hfailed) (.inl hfirst)))
    exact hset.trans (steps_passArguments rest (hset.sound hs) (Nat.lt_of_lt_of_le hid hset.size_le)
      (.inr (hset.failed hfailed)) fun a ha => (hrest a ha).later (hset.later hs))

theorem visits_compileCall {part : Line.CallPart} (hinner : Compiles inner)
    (hs : s.Sound) (hr : s.Readied) (hid : id < s.lines.size)
    (hkind : ((s.enterLine id).line id).kind = .call part) :
    ∃ ids, Visits (s.Under [id]) ids s (compileCall inner (s.enterLine id) id part) := by
  have henter := Visits.enterLine hs hr hid
  generalize s.enterLine id = t at henter hkind ⊢
  have hs' := henter.sound hs
  have hid' := Nat.lt_of_lt_of_le hid henter.steps.size_le
  unfold compileCall
  split
  · exact ⟨_, henter.mono fun k hk => .of_mem (List.mem_singleton.mpr hk)⟩
  rename_i expansion hexpansion
  have hread : (∀ a ∈ (part.arguments.zip part.expressions).zip expansion.parameters, a.1.2 ≠ none) ∨ t.Failed := by
    refine (hs'.complete id).imp_left fun hcomplete a ha hnone => ?_
    rw [Line.Complete, hkind] at hcomplete
    have hmem := (List.of_mem_zip (List.of_mem_zip ha).1).2
    rw [hnone] at hmem
    exact hcomplete hmem
  have hfree : ∀ a ∈ (part.arguments.zip part.expressions).zip expansion.parameters, t.Free a.2 := by
    have howned := (hs'.owned id).2
    rw [hkind] at howned
    exact fun a ha => howned expansion hexpansion a.2 (List.of_mem_zip ha).2
  have hpass := steps_passArguments _ hs' hid' hread hfree
  have hpassed := henter.still hpass hs
  have hkind' := (hpass.kind_eq hs' hid' fun h => h).trans hkind
  simp only
  generalize t.passArguments id ((part.arguments.zip part.expressions).zip expansion.parameters) = u
    at hpassed hkind' ⊢
  have hbelow : linesBelow (u.line id) = [expansion.items] := by
    rw [linesBelow, hkind']
    simp [hexpansion]
  have hdeepen : Change .still u u.openCall := .nest ..
  obtain ⟨ids, hrun⟩ := visits_held hinner (hpassed.sound hs) hpassed.readied hbelow hdeepen rfl
  exact ⟨_, hpassed.descend (hrun.between (hpassed.sound hs) hpassed.readied hdeepen (.nest ..)) hs⟩

/-! ## Lines -/

/-- Whether a directive holds lines of its own. -/
def HoldsLines (d : Directive) : Prop := d = .repetition ∨ d = .includeSource

theorem delivers_compileCommand (hs : s.Sound) (hr : s.Readied)
    (hid : id < s.lines.size) (hkind : (s.line id).kind = .command part) (hrunning : s.stopped = false)
    (hnone : ¬ HoldsLines part.directive) (hother : part.directive ≠ .enumeration) :
    Delivers id s (compileCommand calls files s id part).2 := by
  have hcomplete : part.Complete ∨ s.Failed := by
    refine (hs.complete id).imp_left fun h => ?_
    rw [Line.Complete, hkind] at h
    exact h
  have hgroup : part.directive ∈ [Directive.byteGroup, .wordGroup, .longGroup] →
      (∀ cells, part.state = .group cells → ∀ c ∈ cells, c.IsRead) ∨ s.Failed := by
    intro hdirective
    rcases hr with (hfailed | hstopped) | hread
    · exact .inr hfailed
    · rw [hrunning] at hstopped
      cases hstopped
    · exact .inl ((hread id part hkind).cells hdirective)
  have hdata : part.directive ∈ [Directive.bytes, .words, .longs] → none ∉ part.expressions ∨ s.Failed := by
    intro hdirective
    refine hcomplete.imp_left fun h => ?_
    simp only [List.mem_cons, List.not_mem_nil, or_false] at hdirective
    rcases hdirective with hd | hd | hd <;> rw [Line.CommandPart.Complete, hd] at h <;> exact h
  have hunbound : part.directive.opens .endGroup = false → s.Unbound id := fun hother =>
    unbound_of_other hs hid fun d hd => Option.some.inj ((directive_of_kind hkind).symm.trans hd) ▸ hother
  unfold compileCommand
  split
  · exact delivers_compileAddress hid _
  · exact delivers_compileAddress hid _
  · rename_i hd
    exact delivers_compileData hid (hunbound (by rw [hd]; rfl)) 1 (hdata (by simp [hd]))
  · rename_i hd
    exact delivers_compileData hid (hunbound (by rw [hd]; rfl)) 2 (hdata (by simp [hd]))
  · rename_i hd
    exact delivers_compileData hid (hunbound (by rw [hd]; rfl)) 3 (hdata (by simp [hd]))
  · rename_i hd
    exact delivers_compileGroup hs hid hkind (by rw [hd]; rfl) (hgroup (by simp [hd]))
  · rename_i hd
    exact delivers_compileGroup hs hid hkind (by rw [hd]; rfl) (hgroup (by simp [hd]))
  · rename_i hd
    exact delivers_compileGroup hs hid hkind (by rw [hd]; rfl) (hgroup (by simp [hd]))
  · rename_i hd
    exact delivers_compileHex (hunbound (by rw [hd]; rfl)) part
  · exact .of_still (steps_compileConstant hs hid hkind)
  · rename_i hd
    exact absurd hd hother
  · rename_i hd
    exact absurd (.inl hd) hnone
  · rename_i hd
    exact absurd (.inr hd) hnone
  · rename_i hd
    refine delivers_compileBinary hid (hunbound (by rw [hd]; rfl)) hkind (hcomplete.imp_left fun h data hstate => ?_)
    rw [Line.CommandPart.Complete, hd] at h
    exact ⟨h data hstate 1 (Nat.le_refl 1), h data hstate 2 (by decide)⟩
  · exact .of_still (steps_compileMessage hid part)
  · exact .of_still (steps_compileFailure hid part)
  · exact .of_still .refl

theorem compileCommand_repetition (h : part.directive = .repetition) :
    compileCommand calls files s id part = (.next, compileRepetition calls s id part) := by
  rw [compileCommand, h]

theorem compileCommand_include (h : part.directive = .includeSource) :
    compileCommand calls files s id part = (.next, compileInclude files s part) := by
  rw [compileCommand, h]

theorem compileCommand_enumeration (h : part.directive = .enumeration) :
    compileCommand calls files s id part = (.next, s.compileEnumeration id part) := by
  rw [compileCommand, h]

theorem visits_compileCommand (hcalls : Compiles calls)
    (hfiles : Compiles files) (hs : s.Sound) (hr : s.Readied) (hid : id < s.lines.size)
    (hkind : ((s.enterLine id).line id).kind = .command part) (hrunning : s.stopped = false) :
    ∃ ids, Visits (s.Under [id]) ids s (compileCommand calls files (s.enterLine id) id part).2 := by
  by_cases hlines : HoldsLines part.directive
  · rcases hlines with hd | hd
    · rw [compileCommand_repetition hd]
      exact visits_compileRepetition hcalls hs hr hid hkind hd
    · rw [compileCommand_include hd]
      exact visits_compileInclude hfiles hs hr hid hkind
  have henter := Visits.enterLine hs hr hid
  have hwrites := writes_enterLine s id
  have hown : ∀ k, k = id → s.Under [id] k := fun k hk => .of_mem (List.mem_singleton.mpr hk)
  have hrunning' := hwrites.stopped.trans hrunning
  by_cases hd : part.directive = .enumeration
  · have hread : part.IsRead ∨ (s.enterLine id).Failed := by
      rcases henter.readied with (hfailed | hstopped) | hread
      · exact .inr hfailed
      · rw [hrunning'] at hstopped
        cases hstopped
      · exact .inl (hread id part hkind)
    rw [compileCommand_enumeration hd]
    exact ⟨_, (Visits.of_enumeration hs hr hid hkind hd hread).mono hown⟩
  · have hdelivers : Delivers id (s.enterLine id) (compileCommand calls files (s.enterLine id) id part).2 :=
      delivers_compileCommand (henter.sound hs) henter.readied (hwrites.size ▸ hid) hkind hrunning' hlines hd
    refine ⟨_, (Visits.of_delivers hdelivers hs hr hid fun h => hd ?_).mono hown⟩
    exact Option.some.inj ((directive_of_kind hkind).symm.trans h)

theorem visits_compileLine (hcalls : Compiles calls) (hfiles : Compiles files) (hs : s.Sound)
    (hr : s.Readied) (hid : id < s.lines.size) (hrunning : s.stopped = false) :
    ∃ ids, Visits (s.Under [id]) ids s (compileLine calls files s id).2 := by
  have hown : ∀ k, k = id → s.Under [id] k := fun k hk => .of_mem (List.mem_singleton.mpr hk)
  have hid' : id < (s.enterLine id).lines.size := (writes_enterLine s id).size ▸ hid
  have hs' := (Visits.enterLine hs hr hid).sound hs
  have hdelivers : ∀ {t : Assembly}, ((s.enterLine id).line id).command? = none → Delivers id (s.enterLine id) t →
      ∃ ids, Visits (s.Under [id]) ids s t := by
    intro t hcommand h
    refine ⟨_, (Visits.of_delivers h hs hr hid ?_).mono hown⟩
    rw [Line.directive?, hcommand]
    decide
  unfold compileLine
  split
  · exact ⟨[], .refl hr⟩
  simp only
  split
  · rename_i hkind
    exact hdelivers (by rw [Line.command?, hkind]) (.of_still .refl)
  · rename_i hkind
    exact hdelivers (by rw [Line.command?, hkind]) (.of_still .refl)
  · rename_i hkind
    refine hdelivers (by rw [Line.command?, hkind]) (delivers_compileInstruction hid' (unbound_of_other hs' hid' ?_) _)
    rw [Line.directive?, Line.command?, hkind]
    intro d hd
    cases hd
  · rename_i hkind
    exact hdelivers (by rw [Line.command?, hkind]) (.of_still (steps_compileVariable hs' hid' hkind))
  · rename_i hkind
    exact visits_compileCommand hcalls hfiles hs hr hid hkind hrunning
  · rename_i hkind
    exact visits_compileCall hcalls hs hr hid hkind

/-! ## Items -/

theorem Visits.branch {branches : List (LineId × List Item)} {index : Nat} {ids ids' : List LineId}
    {t u : Assembly} (hfirst : Visits (s.Under (id :: Item.branchLines id branches)) (id :: ids) s t)
    (hids : ids ⊆ dividers id branches)
    (hbody : Visits (t.Under (Item.allLines (bodyAt branches index))) ids' t u) (hs : s.Sound)
    (hapart : s.Apart (id :: Item.branchLines id branches))
    (hroots : ∀ i ∈ id :: Item.branchLines id branches, i < s.lines.size) :
    Visits (s.Under (id :: Item.branchLines id branches)) (id :: ids ++ ids') s u := by
  have hsub := (bodyAt_sublist id branches index).subset
  refine hfirst.trans hbody hs (fun k hk => ?_) fun k hk hk' => absurd hk' ?_
  · exact (hfirst.adds.under_or_new (hfirst.sound hs) hk).imp_left fun h =>
      h.subset fun j hj => List.mem_cons_of_mem id (hsub hj)
  · -- what has been visited is the conditional or a divider
    exact hfirst.adds.not_under_bodyAt (hfirst.sound hs) hapart hroots (List.cons_subset_cons id hids hk)

mutual

theorem visits_compileItem (hcalls : Compiles calls) (hfiles : Compiles files) :
    ∀ (item : Item) {s : Assembly}, s.Sound → s.Readied → item.Proper (· < s.lines.size) → s.Apart item.lines →
      s.stopped = false → ∃ ids, Visits (s.Under item.lines) ids s (compileItem calls files item s).2
  | .line id, s, hs, hr, hitem, _, hrunning => by
    rw [Item.lines]
    exact visits_compileLine hcalls hfiles hs hr hitem.id hrunning
  | .conditional id branches, s, hs, hr, hitem, hapart, _ => by
    rw [Item.lines] at hapart ⊢
    have henter := Visits.enterLine hs hr hitem.id
    have hroots : ∀ i ∈ id :: Item.branchLines id branches, i < s.lines.size := fun i hi =>
      hitem.mem_lines i (by rw [Item.lines]; exact hi)
    have hroots' := (List.forall_mem_cons.mp hroots).2
    have hitem' : (Item.conditional id branches).Proper (· < (s.enterLine id).lines.size) :=
      hitem.mono fun _ h => Nat.lt_of_lt_of_le h henter.steps.size_le
    obtain ⟨ids, hids, hswitch⟩ := visits_switchBranch (henter.sound hs) henter.readied hitem'
      (henter.adds.apart (henter.sound hs) hroots hapart)
    have hown : Visits (s.Under [id]) [id] s (s.enterLine id) :=
      henter.mono fun k hk => .of_mem (List.mem_singleton.mpr hk)
    have hwhole := hown.sequel hswitch hs hapart hroots'
    unfold compileItem
    split
    · exact ⟨[], .refl hr⟩
    split
    · rename_i t heq
      exact ⟨_, hwhole.result heq⟩
    rename_i index t heq
    have hfirst : Visits (s.Under (id :: Item.branchLines id branches)) (id :: ids) s t := hwhole.result heq
    have hsub := bodyAt_sublist id branches index
    have hbody := visits_compileBranch hcalls hfiles index branches (hfirst.sound hs) hfirst.readied
      (fun item h => ((proper_bodyAt hitem index).1 item h).mono fun _ h =>
        Nat.lt_of_lt_of_le h hfirst.steps.size_le)
      (hfirst.adds.apart (hfirst.sound hs) (fun i hi => hroots' i (hsub.subset hi)) (hapart.sublist (hsub.cons id)))
    obtain ⟨ids', hbody⟩ := hbody
    exact ⟨_, hfirst.branch hids hbody hs hapart hroots⟩

theorem visits_compileItems (hcalls : Compiles calls) (hfiles : Compiles files) :
    ∀ (items : List Item) {s : Assembly}, s.Sound → s.Readied → (∀ item ∈ items, item.Proper (· < s.lines.size)) →
      s.Apart (Item.allLines items) →
      ∃ ids, Visits (s.Under (Item.allLines items)) ids s (compileItems calls files items s).2
  | [], s, _, hr, _, _ => ⟨[], .refl hr⟩
  | item :: items, s, hs, hr, hitems, hapart => by
    obtain ⟨hitem, hrest⟩ := List.forall_mem_cons.mp hitems
    rw [Item.allLines] at hapart ⊢
    unfold compileItems
    split
    · exact ⟨[], .refl hr⟩
    rename_i hrunning
    obtain ⟨ids, hfirst⟩ := visits_compileItem hcalls hfiles item hs hr hitem
      (hapart.sublist (List.sublist_append_left _ _)) (Bool.eq_false_iff.mpr hrunning)
    split
    · rename_i t heq
      exact ⟨ids, (hfirst.result heq).mono fun k hk => hk.subset (List.subset_append_left _ _)⟩
    rename_i t heq
    replace hfirst := hfirst.result heq
    have hroots : ∀ i ∈ Item.allLines items, i < s.lines.size := by
      intro i hi
      obtain ⟨other, hother, hi⟩ := Item.mem_allLines.mp hi
      exact (hrest other hother).mem_lines i hi
    obtain ⟨ids', hlater⟩ := visits_compileItems hcalls hfiles items (hfirst.sound hs) hfirst.readied
      (fun other hother => (hrest other hother).mono fun _ h => Nat.lt_of_lt_of_le h hfirst.steps.size_le)
      (hfirst.adds.apart (hfirst.sound hs) hroots (hapart.sublist (List.sublist_append_right _ _)))
    exact ⟨ids ++ ids', hfirst.sequel hlater hs hapart hroots⟩

theorem visits_compileBranch (hcalls : Compiles calls) (hfiles : Compiles files) :
    ∀ (index : Nat) (branches : List (LineId × List Item)) {s : Assembly}, s.Sound → s.Readied →
      (∀ item ∈ bodyAt branches index, item.Proper (· < s.lines.size)) →
      s.Apart (Item.allLines (bodyAt branches index)) →
      ∃ ids, Visits (s.Under (Item.allLines (bodyAt branches index))) ids s
        (compileBranch calls files index branches s).2
  | _, [], s, _, hr, _, _ => by
    unfold compileBranch
    exact ⟨[], .refl hr⟩
  | 0, branch :: _, _, hs, hr, hitems, hapart => visits_compileBody hcalls hfiles branch hs hr hitems hapart
  | index + 1, _ :: branches, _, hs, hr, hitems, hapart =>
    visits_compileBranch hcalls hfiles index branches hs hr hitems hapart

theorem visits_compileBody (hcalls : Compiles calls) (hfiles : Compiles files) :
    ∀ (branch : LineId × List Item) {s : Assembly}, s.Sound → s.Readied →
      (∀ item ∈ branch.2, item.Proper (· < s.lines.size)) → s.Apart (Item.allLines branch.2) →
      ∃ ids, Visits (s.Under (Item.allLines branch.2)) ids s (compileBody calls files branch s).2
  | (_, body), _, hs, hr, hitems, hapart => visits_compileItems hcalls hfiles body hs hr hitems hapart

end

/-- Lines are compiled with those below them, each once, through any number of calls, repetitions and
included files. -/
theorem compiles_compileWithin : ∀ bound : Budget, Compiles (compileWithin bound)
  | .spent, _, _, _, hr, _, _ => ⟨[], .refl hr⟩
  | .left calls files, _, items, hs, hr, hitems, hapart =>
    visits_compileItems (compiles_compileWithin calls) (compiles_compileWithin files) items hs hr hitems hapart

end CrossAssembler.Assembly
