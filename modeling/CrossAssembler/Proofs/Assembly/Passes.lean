import CrossAssembler.Proofs.Assembly.Compilation
import CrossAssembler.Proofs.Assembly.Files

/-!
# Passes

* `visits_runPass` — a pass visits each line at most once.

Principal results: `concluded_compileAll` — work that is not told to stop ends with a final pass, whatever
the files are; `known_of_no_error` — if it ends without an error, every line has taken part and every byte
is known.
-/

namespace CrossAssembler.Assembly

variable {first s s' : Assembly} {index : Nat} {last : Bool}

/-! ## One pass -/

theorem Sound.beginPass (h : s.Sound) (index : Nat) (last : Bool) : (s.beginPass index last).Sound where
  free := h.free
  freeScopes := h.freeScopes
  freeLabels := h.freeLabels
  rooted := h.rooted
  outwards := h.outwards
  placed := h.placed
  owned id := Owns.later (h.owned id)
    (show Later s (s.beginPass index last) from ⟨Nat.le_refl _, fun _ hp => hp, fun _ hp => .inl hp, fun _ _ => rfl⟩)
  rowLabels := h.rowLabels
  distinct := h.distinct
  assigned := h.assigned
  complete := h.complete
  consistent := h.consistent
  rows := h.rows
  below := h.below
  forest := h.forest.sameLines rfl rfl
  skipped := h.skipped
  evaluated := nofun
  emitted := nofun

theorem Indexed.beginPass (h : s.Indexed) (index : Nat) (last : Bool) : (s.beginPass index last).Indexed where
  tables id table htable := by
    obtain ⟨hgroup, hmade, hcells, hlabels⟩ := h.tables id table htable
    exact ⟨hgroup, hmade, hcells, hlabels⟩
  groups := h.groups
  written := nofun

theorem Prepared.beginPass (h : Prepared s) (index : Nat) (last : Bool) : Prepared (s.beginPass index last) :=
  ⟨h.sound.beginPass index last, h.readied, h.made, h.indexed.imp_right (·.beginPass index last)⟩

theorem Prepared.after {may : Permit} (h : Prepared s) (hsteps : Steps may s s') (hread : s'.Readied) :
    Prepared s' := by
  refine ⟨hsteps.sound h.sound, hread, ?_, hsteps.indexed h.sound h.indexed⟩
  rw [hsteps.units]
  exact h.made.mono hsteps.size_le

theorem visits_compileUnit {u : SourceUnit} (hs : s.Sound) (hr : s.Readied)
    (hitems : ∀ item ∈ u.items, item.Proper (· < s.lines.size)) (hapart : s.Apart (Item.allLines u.items)) :
    ∃ ids, Visits (s.Under (Item.allLines u.items)) ids s (s.compileUnit u) := by
  have hopen : Change .still s (s.openUnit u.path) := .nest ..
  obtain ⟨ids, hrun⟩ := compiles_compileWithin .full _ u.items (hopen.sound hs)
    (Step.readied (.change hopen) (fun _ h => h) hs hr) hitems ⟨hapart.nodup, hapart.eq_of_below⟩
  exact ⟨ids, hrun.between hs hr hopen (.nest ..)⟩

theorem visits_compileUnits : ∀ (units : List SourceUnit) {s : Assembly}, s.Sound → s.Readied →
    Made s (units.map fun u => u.items) → s.Apart (lineIds (units.map fun u => u.items)) →
    ∃ ids, Visits (s.Under (lineIds (units.map fun u => u.items))) ids s (units.foldl compileUnit s)
  | [], _, _, hr, _, _ => ⟨[], .refl hr⟩
  | u :: units, s, hs, hr, hmade, hapart => by
    obtain ⟨hitems, hrest⟩ := List.forall_mem_cons.mp hmade
    rw [List.map_cons, lineIds_cons] at hapart ⊢
    obtain ⟨ids, hfirst⟩ := visits_compileUnit hs hr hitems (hapart.sublist (List.sublist_append_left _ _))
    have hroots : ∀ i ∈ lineIds (units.map fun u => u.items), i < s.lines.size := fun i hi =>
      Made.lt_of_mem hrest hi
    obtain ⟨ids', hlater⟩ := visits_compileUnits units (hfirst.sound hs) hfirst.readied
      (Made.mono hrest hfirst.steps.size_le)
      (hfirst.adds.apart (hfirst.sound hs) hroots (hapart.sublist (List.sublist_append_right _ _)))
    exact ⟨ids ++ ids', hfirst.sequel hlater hs hapart hroots⟩

theorem visits_runPass (h : Prepared s) (index : Nat) (last : Bool) :
    (∃ ids, Visits (fun _ => True) ids (s.beginPass index last) (s.runPass index last)) ∧
      Prepared (s.runPass index last) := by
  have hbegin := h.beginPass index last
  obtain ⟨ids, hrun⟩ := visits_compileUnits (s.beginPass index last).units hbegin.sound hbegin.readied
    hbegin.made (apart_held hbegin.sound none)
  have hclose : Visits (fun _ => True) ids (s.beginPass index last) (s.runPass index last) :=
    (hrun.mono fun _ _ => trivial).between hbegin.sound hbegin.readied (.nest ..) (.nest ..)
  exact ⟨⟨ids, hclose⟩, hbegin.after hclose.steps hclose.readied⟩

/-! ## All passes -/

/-- Whether the work has ended with a final pass, in which each line has been visited at most once, and there
is a warning if a label has changed in it. -/
def Concluded (s : Assembly) : Prop :=
  ∃ t index u ids, Prepared t ∧ Visits (fun _ => True) ids (t.beginPass index true) u ∧
    s = match u.progress.unsettled with
      | some span => u.warn span s!"label values did not settle within {index + 1} passes"
      | none => u

/-- Which passes are made from an assembly on: what a pass begins with, its number and whether it is the final
one. A final pass is made once nothing has changed and everything is known, or when there are no more. -/
inductive MakesPass (first : Assembly) : Assembly → Nat → Bool → Prop
  | begin : MakesPass first first 0 (max first.settings.passes 1 == 1)
  | next {s : Assembly} {index : Nat} (h : MakesPass first s index false)
      (running : (s.runPass index false).stopped = false) :
      MakesPass first (s.runPass index false) (index + 1)
        ((!(s.runPass index false).progress.changed && (s.runPass index false).progress.pending == 0) ||
          max first.settings.passes 1 ≤ index + 2)

theorem MakesPass.prepared (h : MakesPass first s index last) (hfirst : Prepared first) : Prepared s := by
  induction h with
  | begin => exact hfirst
  | next _ _ ih => exact (visits_runPass ih _ false).2

/-- What is done from a pass on is what is done in all. -/
theorem MakesPass.runPasses (h : MakesPass first s index last) :
    ∃ bound, index + bound + 1 = max first.settings.passes 1 ∧ (bound = 0 → last = true) ∧
      first.runPasses = runPassesFrom (max first.settings.passes 1) (bound + 1) s index last := by
  induction h with
  | begin =>
    obtain ⟨bound, hbound⟩ : ∃ bound, max first.settings.passes 1 = bound + 1 :=
      Nat.exists_eq_succ_of_ne_zero (by omega)
    refine ⟨bound, by omega, fun hzero => ?_, ?_⟩
    · rw [hbound, hzero]
      rfl
    · unfold Assembly.runPasses
      simp only [hbound]
  | @next s index h running ih =>
    obtain ⟨bound, hbound, hlast, heq⟩ := ih
    obtain ⟨left, rfl⟩ : ∃ left, bound = left + 1 :=
      Nat.exists_eq_succ_of_ne_zero fun hzero => Bool.false_ne_true (hlast hzero)
    refine ⟨left, by omega, fun hzero => ?_, ?_⟩
    · rw [Bool.or_eq_true, decide_eq_true_eq]
      exact .inr (by omega)
    · rw [heq, runPassesFrom]
      simp only [running, Bool.false_eq_true, if_false]

/-- The number of passes that are left is enough for the last one. -/
theorem MakesPass.concludes {s : Assembly} {index : Nat} {last : Bool} (h : MakesPass first s index last) :
    first.runPasses.stopped = true ∨ ∃ t k, MakesPass first t k true ∧
      first.runPasses = match (t.runPass k true).progress.unsettled with
        | some span => (t.runPass k true).warn span s!"label values did not settle within {k + 1} passes"
        | none => t.runPass k true := by
  obtain ⟨bound, hbound, _, heq⟩ := h.runPasses
  cases hstopped : (s.runPass index last).stopped with
  | true =>
    left
    rw [heq, runPassesFrom]
    simp only [hstopped, if_true]
  | false =>
    cases last with
    | true =>
      refine .inr ⟨s, index, h, ?_⟩
      rw [heq, runPassesFrom]
      exact (if_neg (Bool.eq_false_iff.mp hstopped)).trans (if_pos rfl)
    | false => exact (h.next hstopped).concludes
termination_by max first.settings.passes 1 - index
decreasing_by omega

theorem concluded_runPasses (h : Prepared s) : s.runPasses.stopped = true ∨ Concluded s.runPasses := by
  refine MakesPass.begin.concludes.imp_right ?_
  rintro ⟨t, k, hpass, heq⟩
  obtain ⟨⟨ids, hvisits⟩, -⟩ := visits_runPass (hpass.prepared h) k true
  exact ⟨t, k, t.runPass k true, ids, hpass.prepared h, hvisits, heq⟩

theorem halfway_addFiles : ∀ (inputs : List (Path × String)) {waiting : List (List Item)} {s : Assembly},
    Halfway [] waiting s → s.analyzed = 0 →
    ∃ lists, Halfway [] lists (inputs.foldl (fun s f => s.addFile f.1 f.2) s) ∧
      (inputs.foldl (fun s f => s.addFile f.1 f.2) s).analyzed = 0
  | [], waiting, _, h, hanalyzed => ⟨waiting, h, hanalyzed⟩
  | (path, text) :: inputs, _, _, h, hanalyzed => by
    obtain ⟨_, h'⟩ := halfway_addFile h path text
    exact halfway_addFiles inputs h' hanalyzed

theorem concluded_compileAll (settings : Settings) (files : Files) (inputs : List (Path × String)) :
    (compileAll settings files inputs).stopped = true ∨ Concluded (compileAll settings files inputs) := by
  obtain ⟨_, h, hanalyzed⟩ := halfway_addFiles inputs (halfway_begin settings files) rfl
  exact concluded_runPasses (prepared_analyzeFiles h hanalyzed)

/-! ## Work that ends without an error -/

theorem Concluded.sound (h : Concluded s) : s.Sound ∧ s.pass.isFinal = true := by
  obtain ⟨t, index, u, _, hprepared, hvisits, rfl⟩ := h
  have hsound : u.Sound := hvisits.sound (hprepared.beginPass index true).sound
  have hfinal : u.pass.isFinal = true := by
    rw [hvisits.steps.pass]
    rfl
  split
  · exact ⟨(Change.report _ : Change .all u _).sound hsound, hfinal⟩
  · exact ⟨hsound, hfinal⟩

/-- **No silent holes.** If the work is not told to stop and reports no error, it has ended with a final
pass, every line has taken part, and all bytes that were written in that pass are known. -/
theorem known_of_no_error (settings : Settings) (files : Files) (inputs : List (Path × String))
    (hrunning : (compileAll settings files inputs).stopped = false)
    (hpassed : (compileAll settings files inputs).diagnostics.hasErrors = false) :
    (compileAll settings files inputs).pass.isFinal = true ∧ (∀ id < (compileAll settings files inputs).lines.size,
        ((compileAll settings files inputs).line id).state ≠ .error ∧
          ((compileAll settings files inputs).line id).state ≠ .ignored) ∧
      ∀ id cells, .emitted id cells ∈ (compileAll settings files inputs).journal → none ∉ cells := by
  have hconcluded := (concluded_compileAll settings files inputs).resolve_left (by rw [hrunning]; nofun)
  generalize compileAll settings files inputs = s at hpassed hconcluded ⊢
  obtain ⟨hsound, hfinal⟩ := hconcluded.sound
  have hnot : ¬ s.Failed := by
    unfold Failed
    rw [hpassed]
    nofun
  refine ⟨hfinal, fun id hid => ?_, fun id cells hevent hnone => ?_⟩
  · have hskipped : ¬ (s.line id).isSkipped = true := fun h => hnot (hsound.skipped id hid h)
    constructor
    · intro hstate
      exact hskipped (by rw [Line.isSkipped, hstate]; rfl)
    · intro hstate
      exact hskipped (by rw [Line.isSkipped, hstate]; rfl)
  · exact hnot (hsound.emitted id cells hevent hnone hfinal)

/-- A macro in a repetition, and a conditional, which all write a label further down. -/
def mixedWork : Assembly :=
  compileAll {} (fun _ => .missing) [("main.asm",
      ".MACRO one\n.DB later\n.ENDM\n.REPEAT 2\none\n.ENDR\n.IF 1\nlater: .DW later\n.ENDIF\n")]

set_option maxRecDepth 100000 in
theorem known_of_mixedWork : (mixedWork.stopped = false ∧ mixedWork.diagnostics.hasErrors = false ∧
      mixedWork.image.toSigned = [2, 2, 2, 0]) ∧
      mixedWork.pass.isFinal = true ∧
      (∀ id < mixedWork.lines.size, (mixedWork.line id).state ≠ .error ∧ (mixedWork.line id).state ≠ .ignored) ∧
      ∀ id cells, .emitted id cells ∈ mixedWork.journal → none ∉ cells := by
  have hclean : mixedWork.stopped = false ∧ mixedWork.diagnostics.hasErrors = false ∧
      mixedWork.image.toSigned = [2, 2, 2, 0] := by decide +kernel
  exact ⟨hclean, known_of_no_error _ _ _ hclean.1 hclean.2.1⟩

end CrossAssembler.Assembly
