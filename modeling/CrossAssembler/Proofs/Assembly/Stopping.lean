import CrossAssembler.Proofs.Assembly.Loading
import CrossAssembler.Proofs.Assembly.Tidiness

/-!
# Work that was told to stop

Lines are declared, resolved, parsed and compiled only while the work has not been told to stop. Putting them
into their block structure does not look at that, so what is wrong with blocks is reported all the same.

* `declareUnit_of_stopped` — of a file nothing but its block structure is worked out.

Principal result: `compile_of_stopped` — what is left of assembling files after the work was told to stop.
-/

namespace CrossAssembler.Assembly

variable {s s' : Assembly}

/-! ## Steps that are left out -/

theorem foldl_of_stopped {α : Type} (f : Assembly → α → Assembly) (h : s.stopped = true) (l : List α) :
    l.foldl (fun s a => if s.stopped then s else f s a) s = s := by
  refine List.foldl_fixed' (fun a => ?_) l
  rw [if_pos h]

theorem declareWithin_of_stopped (b : Budget) (h : s.stopped = true) (items : List Item) :
    declareWithin b s items = s := by
  cases b with
  | spent => rfl
  | left calls files => exact foldl_of_stopped (fun s item => declareLine (declareWithin files) s item.id) h items

theorem resolveWithin_of_stopped (b : Budget) (h : s.stopped = true) (items : List Item) :
    resolveWithin b s items = s := by
  cases b with
  | spent => rfl
  | left calls files =>
    exact foldl_of_stopped (fun s item => resolveLine
      (fun s items => resolveWithin calls (declareWithin calls s items) items) (resolveWithin files) s item.id) h items

theorem parseWithin_of_stopped (b : Budget) (h : s.stopped = true) (items : List Item) :
    parseWithin b s items = s := by
  cases b with
  | spent => rfl
  | left calls files => exact foldl_of_stopped (parseItem (parseWithin calls) (parseWithin files)) h items

theorem compileWithin_of_stopped (b : Budget) (h : s.stopped = true) (items : List Item) :
    (compileWithin b s items).2 = s := by
  cases b with
  | spent => rfl
  | left calls files =>
    cases items with
    | nil => rfl
    | cons item items =>
      unfold compileWithin compileItems
      rw [if_pos h]

/-! ## Analysis -/

/-- Whether nothing happens but that diagnostics are added: no label is made or gets a value, and no message is
given. -/
structure Rests (s s' : Assembly) : Prop where
  stopped : s'.stopped = s.stopped
  symbols : s'.symbols = s.symbols
  messages : s'.messages = s.messages
  added : ∃ added, s'.diagnostics = s.diagnostics ++ added

theorem Rests.of_diagnostics (hstopped : s'.stopped = s.stopped) (hsymbols : s'.symbols = s.symbols)
    (hmessages : s'.messages = s.messages) (h : s'.diagnostics = s.diagnostics) : Rests s s' :=
  ⟨hstopped, hsymbols, hmessages, #[], by rw [h, Array.append_empty]⟩

theorem Rests.trans {s'' : Assembly} (h : Rests s s') (h' : Rests s' s'') : Rests s s'' where
  stopped := h'.stopped.trans h.stopped
  symbols := h'.symbols.trans h.symbols
  messages := h'.messages.trans h.messages
  added := by
    obtain ⟨added, hadded⟩ := h.added
    obtain ⟨added', hadded'⟩ := h'.added
    exact ⟨added ++ added', by rw [hadded', hadded, Array.append_assoc]⟩

theorem declareUnit_of_stopped (h : s.stopped = true) {index : Nat} {u : SourceUnit} (hu : s.units[index]? = some u) :
    s.declareUnit index = { ((s.arrange (unitLines u)).2.openUnit u.path).closeUnits with
      units := s.units.modify index fun v => { v with items := (s.arrange (unitLines u)).1 } } := by
  have hannotates : Annotates s (s.arrange (unitLines u)).2 := annotates_arrangeWithin _ s _
  unfold declareUnit
  rw [hu]
  simp only
  rw [show u.items.map Item.id = unitLines u from rfl]
  generalize s.arrange (unitLines u) = arranged at hannotates ⊢
  obtain ⟨items, t⟩ := arranged
  have hdeclare : (t.openUnit u.path).declare items = t.openUnit u.path :=
    declareWithin_of_stopped .full (s := t.openUnit u.path) (hannotates.stopped.trans h) items
  simp only [hdeclare]
  obtain ⟨lines, added, rfl⟩ := hannotates
  rfl

theorem rests_declareUnit (h : s.stopped = true) (index : Nat) : Rests s (s.declareUnit index) := by
  cases hu : s.units[index]? with
  | none =>
    unfold declareUnit
    rw [hu]
    exact .of_diagnostics rfl rfl rfl rfl
  | some u =>
    obtain ⟨lines, added, harrange⟩ : Annotates s (s.arrange (unitLines u)).2 := annotates_arrangeWithin _ s _
    rw [declareUnit_of_stopped h hu, harrange]
    exact ⟨rfl, rfl, rfl, added, rfl⟩

theorem rests_declareUnits (h : s.stopped = true) (indices : List Nat) : Rests s (indices.foldl declareUnit s) := by
  induction indices generalizing s with
  | nil => exact .of_diagnostics rfl rfl rfl rfl
  | cons index indices ih =>
    have hfirst := rests_declareUnit h index
    exact hfirst.trans (ih (hfirst.stopped.trans h))

theorem quiet_declareUnits {count n : Nat} (hstopped : s.stopped = true) (hcount : n + count = s.units.length)
    (hnodup : ((s.units.drop n).flatMap unitLines).Nodup)
    (hfresh : ∀ id ∈ (s.units.drop n).flatMap unitLines, (s.line id).IsFresh) :
    Quiet s ((List.range' n count).foldl declareUnit s) ↔ ∀ u ∈ s.units.drop n, Tidy s (unitLines u) := by
  induction count generalizing s n with
  | zero =>
    rw [List.drop_eq_nil_of_le (by omega)]
    exact ⟨fun _ => nofun, fun _ => rfl⟩
  | succ count ih =>
    have hlt : n < s.units.length := by omega
    obtain ⟨u, hu⟩ : ∃ u, s.units[n]? = some u := ⟨_, List.getElem?_eq_getElem hlt⟩
    have hdrop : s.units.drop n = u :: s.units.drop (n + 1) := by
      rw [List.drop_eq_getElem_cons hlt, ← Option.some.inj ((List.getElem?_eq_getElem hlt).symm.trans hu)]
    rw [hdrop, List.flatMap_cons] at hnodup hfresh
    have hown : ∀ id ∈ unitLines u, (s.line id).IsFresh := fun id hid => hfresh id (List.mem_append_left _ hid)
    have hstep := declareUnit_of_stopped hstopped hu
    have hquiet : Quiet s (s.declareUnit n) ↔ Tidy s (unitLines u) := by
      rw [hstep]
      exact quiet_arrange hnodup.of_append_left hown
    obtain ⟨htouch, -⟩ : Touches (unitLines u) s (s.arrange (unitLines u)).2 ∧ _ :=
      arrangeWithin_accounts _ s _ (Nat.le_refl _) hnodup.of_append_left hown
    have hrests := rests_declareUnit hstopped n
    have hunits : (s.declareUnit n).units.drop (n + 1) = s.units.drop (n + 1) := by
      rw [hstep]
      exact List.drop_modify_of_lt _ _ _ _ (Nat.lt_succ_self n)
    have hlines : ∀ id ∈ (s.units.drop (n + 1)).flatMap unitLines, (s.declareUnit n).line id = s.line id := by
      intro id hid
      rw [hstep]
      exact htouch.others id fun hin => List.disjoint_of_nodup_append hnodup hin hid
    have hdirectives : (s.declareUnit n).directives = s.directives := by
      rw [hstep]
      exact htouch.directives
    have hrest := ih (s := s.declareUnit n) (n := n + 1) (hrests.stopped.trans hstopped)
      (by rw [hstep]; simp only [List.length_modify]; omega) (hunits ▸ hnodup.of_append_right)
      (fun id hid => by
        rw [hunits] at hid
        rw [hlines id hid]
        exact hfresh id (List.mem_append_right _ hid))
    rw [List.range'_succ, List.foldl_cons, hdrop, List.forall_mem_cons,
      quiet_trans_iff hrests.added (rests_declareUnits (hrests.stopped.trans hstopped) _).added, hquiet, hrest, hunits]
    refine and_congr_right fun _ => forall₂_congr fun v hv => Tidy.congr_iff hdirectives fun id hid => ?_
    exact hlines id (List.mem_flatMap.mpr ⟨v, hv, hid⟩)

theorem analyzeUnits_of_stopped (h : s.stopped = true) (indices : List Nat) :
    s.analyzeUnits indices = indices.foldl declareUnit s := by
  have hstopped := (rests_declareUnits h indices).stopped.trans h
  unfold analyzeUnits
  generalize indices.foldl declareUnit s = t at hstopped ⊢
  have hresolve : indices.foldl (fun s index => s.resolve (s.unitItems index)) t = t :=
    List.foldl_fixed' (fun index => resolveWithin_of_stopped .full hstopped (t.unitItems index)) indices
  have hparse : indices.foldl (fun s index => s.parse (s.unitItems index)) t = t :=
    List.foldl_fixed' (fun index => parseWithin_of_stopped .full hstopped (t.unitItems index)) indices
  simp only [hresolve, hparse]

/-! ## Passes -/

theorem rests_runPass (h : s.stopped = true) (index : Nat) (last : Bool) :
    Rests s (s.runPass index last) ∧ Quiet s (s.runPass index last) ∧ (s.runPass index last).image = .empty := by
  have hunits : ∀ (units : List SourceUnit) (t : Assembly), t.stopped = true →
      ∃ includeStack nestings, units.foldl compileUnit t = { t with includeStack, nestings } := by
    intro units
    induction units with
    | nil => exact fun t _ => ⟨t.includeStack, t.nestings, rfl⟩
    | cons u units ih =>
      intro t ht
      rw [List.foldl_cons, compileUnit, compileWithin_of_stopped .full (s := t.openUnit u.path) ht]
      exact ih (t.openUnit u.path) ht
  obtain ⟨stack, nestings, hstack⟩ := hunits (s.beginPass index last).units (s.beginPass index last) h
  unfold runPass
  simp only [hstack]
  exact ⟨.of_diagnostics rfl rfl rfl rfl, rfl, rfl⟩

theorem rests_runPasses (h : s.stopped = true) :
    Rests s s.runPasses ∧ Quiet s s.runPasses ∧ s.runPasses.image = .empty := by
  have htotal : max s.settings.passes 1 = max s.settings.passes 1 - 1 + 1 := by omega
  have hpass := rests_runPass h 0 (max s.settings.passes 1 == 1)
  unfold runPasses
  rw [htotal, runPassesFrom, ← htotal]
  simp only [hpass.1.stopped.trans h, if_true]
  exact hpass

/-! ## Files -/

/-- Files that were taken in before the work was told to stop. -/
def stoppedWith (settings : Settings) (files : Files) (inputs : List (Path × String)) : Assembly :=
  { inputs.foldl (fun s f => s.addFile f.1 f.2) (begin settings files) with stopped := true }

theorem loaded_stoppedWith (settings : Settings) (files : Files) (inputs : List (Path × String)) :
    (stoppedWith settings files inputs).Loaded := by
  have h := loaded_addFiles (loaded_begin settings files) inputs
  exact ⟨h.free, h.freeScopes, h.fresh, h.bounded, h.nodup, h.analyzed, h.labels, h.diagnostics, h.messages⟩

/-- When the work is told to stop before files are assembled, no message is given, nothing is written and no label
gets a value. Nothing is reported exactly when the blocks of every file are in order: what is wrong with them is
reported all the same. -/
theorem compile_of_stopped (settings : Settings) (files : Files) (inputs : List (Path × String)) :
    (stoppedWith settings files inputs).compile.messages = #[] ∧
      (stoppedWith settings files inputs).compile.image = .empty ∧
      (∀ label, ((stoppedWith settings files inputs).compile.symbols.label label).value = none) ∧
      ((stoppedWith settings files inputs).compile.diagnostics = #[] ↔
        ∀ u ∈ (stoppedWith settings files inputs).units, Tidy (stoppedWith settings files inputs) (unitLines u)) := by
  have hloaded := loaded_stoppedWith settings files inputs
  have hstopped : (stoppedWith settings files inputs).stopped = true := rfl
  generalize stoppedWith settings files inputs = s at hloaded hstopped ⊢
  have hdeclare := rests_declareUnits hstopped (List.range' 0 s.units.length)
  have hanalysis : s.analyzeFiles =
      { (List.range' 0 s.units.length).foldl declareUnit s with analyzed := s.units.length } := by
    unfold analyzeFiles
    simp only [hloaded.analyzed, Nat.sub_zero, analyzeUnits_of_stopped hstopped]
  have hanalyze : Rests s s.analyzeFiles := by
    rw [hanalysis]
    exact hdeclare.trans (.of_diagnostics rfl rfl rfl rfl)
  obtain ⟨hpasses, hquiet, himage⟩ := rests_runPasses (hanalyze.stopped.trans hstopped)
  have hall : Rests s s.compile := hanalyze.trans hpasses
  refine ⟨hall.messages.trans hloaded.messages, himage, fun label => ?_, ?_⟩
  · unfold SymbolTable.label
    rw [hall.symbols, hloaded.labels]
    rfl
  have hunits := quiet_declareUnits (n := 0) hstopped (Nat.zero_add _) (by rw [List.drop_zero]; exact hloaded.nodup)
    (by rw [List.drop_zero]; exact fun id hid => hloaded.fresh id (hloaded.bounded id hid))
  rw [List.drop_zero] at hunits
  have hfirst : Quiet s s.analyzeFiles ↔ ∀ u ∈ s.units, Tidy s (unitLines u) := by
    rw [hanalysis]
    exact hunits
  rw [← hfirst, ← hloaded.diagnostics]
  exact (quiet_trans_iff hanalyze.added hpasses.added).trans (and_iff_left hquiet)

/-- A conditional that nothing ends is reported although the work was told to stop. -/
theorem unmatched_reported_though_stopped :
    (stoppedWith {} (fun _ => .missing) [("a.asm", ".IF 1\n")]).compile.diagnostics.map (fun d => d.message) =
      #[".IF without a matching .ENDIF"] := by
  decide +kernel

end CrossAssembler.Assembly
