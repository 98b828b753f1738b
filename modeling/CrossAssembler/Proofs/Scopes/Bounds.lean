import CrossAssembler.Proofs.Scopes.Lexical
import CrossAssembler.Proofs.Scopes.Seats

/-!
# Nesting stays within its limits

Macros that call each other, files that include each other and repetitions in repetitions come to an end because the
work goes no deeper than the limits allow. The nesting is noted each time it changes, so that what is noted tells of
every moment of the work.

Principal result: `nesting_bounded_and_balanced`.
-/

namespace CrossAssembler

namespace Assembly

variable {r : Regime} {s s' : Assembly} {seat : LineId → Nat × List Path}

/-! ## Between the phases -/

/-- Whether nothing is open, and the nesting was always within its limits. -/
structure AtRest (s : Assembly) : Prop where
  depth : s.depth = 0
  includeStack : s.includeStack = []
  bounded : s.Bounded

namespace AtRest

theorem congr (h : s.AtRest) (hdepth : s'.depth = s.depth) (hstack : s'.includeStack = s.includeStack)
    (hnestings : s'.nestings = s.nestings) : s'.AtRest := by
  obtain ⟨hdepth', hstack', hfits, hlatest⟩ := h
  refine ⟨hdepth.trans hdepth', hstack.trans hstack', ?_, ?_⟩
  · rw [hnestings]
    exact hfits
  · rw [hnestings, hdepth, hstack]
    exact hlatest

theorem analyses (h : s.AtRest) (ha : Analyses r s s') : s'.AtRest :=
  ⟨ha.carries.depth.trans h.depth, ha.carries.includeStack.trans h.includeStack, ha.bounded h.bounded⟩

theorem bounded_openUnit (hdepth : s.depth = 0) (hbounded : s.Bounded) (path : Path) : (s.openUnit path).Bounded := by
  refine hbounded.note ⟨?_, ?_, List.pairwise_singleton _ _⟩ rfl
  · change s.depth ≤ expansionLimit
    rw [hdepth]
    exact Nat.zero_le _
  · change 1 ≤ includeLimit
    decide

theorem closeUnits (hdepth : s.depth = 0) (hbounded : s.Bounded) : s.closeUnits.AtRest := by
  refine ⟨hdepth, rfl, hbounded.note ⟨?_, Nat.zero_le _, List.Pairwise.nil⟩ rfl⟩
  change s.depth ≤ expansionLimit
  rw [hdepth]
  exact Nat.zero_le _

theorem inUnit (h : s.AtRest) {path : Path} (ha : Analyses r (s.openUnit path) s') : s'.closeUnits.AtRest :=
  closeUnits (ha.carries.depth.trans h.depth) (ha.bounded (bounded_openUnit h.depth h.bounded path))

theorem kept_of_false (s : Assembly) : s.Kept ⟨False, False, False⟩ := ⟨nofun, nofun⟩

theorem loadSource (h : s.AtRest) (path : Path) (text : String) : (s.loadSource path text).2.AtRest :=
  h.analyses (Gains.analyses (r := ⟨False, False, False⟩) ((kept_of_false s).orderly.loadSource path text) nofun)

theorem addFile (h : s.AtRest) (path : Path) (text : String) : (s.addFile path text).AtRest :=
  (h.loadSource path text).congr rfl rfl rfl

theorem declareUnit (h : s.AtRest) (index : Nat) : (s.declareUnit index).AtRest := by
  unfold Assembly.declareUnit
  split
  · exact h
  · rename_i u _
    have harrange := h.analyses ((kept_of_false s).arrange (u.items.map Item.id) nofun).1.analyses
    have hdeclare := analyses_declareWithin .full _ (s.arrange (u.items.map Item.id)).1
      (kept_of_false ((s.arrange (u.items.map Item.id)).2.openUnit u.path))
    exact (harrange.inUnit hdeclare).congr rfl rfl rfl

theorem analyzeUnits (h : s.AtRest) (indices : List Nat) : (s.analyzeUnits indices).AtRest := by
  unfold Assembly.analyzeUnits
  refine List.foldlRecOn indices _ (List.foldlRecOn indices _ (List.foldlRecOn indices _ h ?_) ?_) ?_
  · exact fun s h index _ => h.declareUnit index
  · exact fun s h index _ => h.analyses (analyses_resolveWithin .full s (s.unitItems index) (kept_of_false s))
  · exact fun s h index _ => h.analyses (Kept.parseWithin .full s (s.unitItems index) (kept_of_false s)).analyses

end AtRest

theorem atRest_begin (settings : Settings) (files : Files) : (begin settings files).AtRest :=
  ⟨rfl, rfl, fun _ hmem => absurd hmem List.not_mem_nil, rfl⟩

/-! ## Seats between the phases -/

/-- Whether scopes are in order, lines have seats and nothing is open. -/
structure Resting (s : Assembly) : Prop where
  kept : s.Kept .scopes
  seated : ∃ seat, s.Seated seat
  atRest : s.AtRest

namespace Resting

theorem congr (h : s.Resting) (hs : s'.Kept .scopes) (hlines : s'.lines = s.lines) (hunits : s'.units = s.units)
    (hrest : s'.AtRest) : s'.Resting := by
  obtain ⟨seat, hseated⟩ := h.seated
  exact ⟨hs, ⟨seat, hseated.congr hlines hunits⟩, hrest⟩

theorem confined (h : s.Resting) (hwork : ∀ seat, s.Seated seat → Confined seat s s') : s'.Resting := by
  obtain ⟨seat, hseated⟩ := h.seated
  obtain ⟨hanalyses, seat', -, hseated'⟩ := hwork seat hseated
  exact ⟨hanalyses.kept, ⟨seat', hseated'⟩, h.atRest.analyses hanalyses⟩

theorem proceeds (h : s.Resting) (hstep : Proceeds .scopes s s') : s'.Resting :=
  h.confined fun _ hseated => hstep.confined hseated

theorem addFile (h : s.Resting) (path : Path) (text : String) : (s.addFile path text).Resting := by
  obtain ⟨seat, hseated⟩ := h.seated
  have hload := h.kept.orderly.loadSource path text
  obtain ⟨seat', -, hseated', hplace⟩ := hseated.gain hload (0, [path])
  refine ⟨h.kept.addFile path text, ⟨seat', ?_⟩, h.atRest.addFile path text⟩
  have hfresh := hload.fresh trivial trivial
  have hnodup := hload.nodup trivial trivial
  unfold Assembly.addFile
  generalize s.loadSource path text = loaded at hload hseated' hplace hfresh hnodup ⊢
  obtain ⟨⟨source, scope, ids⟩, s₁⟩ := loaded
  refine ⟨List.forall_mem_append.mpr ⟨hseated'.units, List.forall_mem_singleton.mpr ⟨?_, ?_⟩⟩, hseated'.nested⟩
  · rw [List.map_map]
    exact (List.map_id'' (fun _ => rfl) ids).symm ▸ hnodup
  · intro id hid
    rw [Item.allLines_map_line] at hid
    exact ⟨(hfresh id hid).2.1, hplace id hid⟩

end Resting

theorem Seated.arrangeUnit {u : SourceUnit} (h : s.Seated seat) (hs : s.Kept .scopes) (hu : u ∈ s.units) :
    (s.arrange (u.items.map Item.id)).2.Seated seat ∧ ((s.arrange (u.items.map Item.id)).1.map Item.id).Nodup ∧
      (s.arrange (u.items.map Item.id)).2.SitAt seat (s.arrange (u.items.map Item.id)).1 (0, [u.path]) := by
  obtain ⟨hnodup, hsit⟩ := h.units u hu
  have hmade := arrange_proper s hnodup
  have harrange := (hs.arrange (u.items.map Item.id) nofun).1
  refine ⟨h.tend harrange, hmade.nodup hnodup, fun id hid => ?_⟩
  rw [harrange.tends.size]
  exact hsit id ((Item.ids_sublist u.items).subset (hmade.1.subset hid))

theorem Seated.setItems {items : List Item} {index : Nat} (h : s.Seated seat) (path : Path)
    (hpath : ∀ u, s.units[index]? = some u → u.path = path) (hnodup : (items.map Item.id).Nodup)
    (hsit : s.SitAt seat items (0, [path])) :
    { s with units := s.units.modify index fun u => { u with items } }.Seated seat := by
  refine ⟨fun u hu => ?_, h.nested⟩
  obtain ⟨j, hj⟩ := List.mem_iff_getElem?.mp hu
  rw [List.getElem?_modify] at hj
  cases hget : s.units[j]? with
  | none =>
    rw [hget] at hj
    cases hj
  | some old =>
    rw [hget] at hj
    by_cases heq : index = j
    · simp only [Option.map_eq_map, Option.map_some, if_pos heq] at hj
      rw [← hpath old (heq ▸ hget)] at hsit
      rw [← Option.some.inj hj]
      exact ⟨hnodup, hsit⟩
    · simp only [Option.map_eq_map, Option.map_some, if_neg heq] at hj
      rw [← Option.some.inj hj]
      exact h.units old (List.mem_of_getElem? hget)

namespace Resting

theorem declareUnit (h : s.Resting) (index : Nat) : (s.declareUnit index).Resting := by
  refine ⟨h.kept.declareUnit index, ?_, h.atRest.declareUnit index⟩
  obtain ⟨seat, hseated⟩ := h.seated
  unfold Assembly.declareUnit
  split
  · exact ⟨seat, hseated⟩
  rename_i u hget
  obtain ⟨hseated₁, hnodup, hsit⟩ := hseated.arrangeUnit h.kept (List.mem_of_getElem? hget)
  have harrange := (h.kept.arrange (u.items.map Item.id) nofun).1
  simp only
  generalize s.arrange (u.items.map Item.id) = arranged at harrange hseated₁ hnodup hsit ⊢
  have hopen : (arranged.2.openUnit u.path).Kept .scopes := harrange.kept.congr rfl rfl rfl rfl rfl rfl rfl rfl
  have hdepth : arranged.2.depth = 0 := harrange.tends.depth.trans h.atRest.depth
  have hplace : ((arranged.2.openUnit u.path).depth, (arranged.2.openUnit u.path).includeStack) = (0, [u.path]) :=
    congrArg (·, [u.path]) hdepth
  have hdeclare := confined_declareWithin .full seat (arranged.2.openUnit u.path) arranged.1 hopen
    (hseated₁.congr rfl rfl) (SitAt.atHand (hplace.symm ▸ hsit))
  obtain ⟨seat₂, hagree, hseated₂⟩ := hdeclare.seated
  have hclosed : ((arranged.2.openUnit u.path).declare arranged.1).closeUnits.Seated seat₂ := hseated₂.congr rfl rfl
  refine ⟨seat₂, hclosed.setItems u.path (fun u' hu' => ?_) hnodup ?_⟩
  · -- the file has the same path still
    have hunits := hdeclare.analyses.carries.units
    have hpaths := congrArg (fun l => (l[index]?).map Prod.fst) (hunits.trans (congrArg (List.map _) harrange.tends.units))
    simp only [List.getElem?_map] at hpaths
    rw [hget] at hpaths
    change ((arranged.2.openUnit u.path).declare arranged.1).units[index]? = some u' at hu'
    rw [Assembly.declare] at hu'
    rw [hu'] at hpaths
    exact Option.some.inj hpaths
  · exact (hsit.carry hdeclare.size_le hagree : ((arranged.2.openUnit u.path).declare arranged.1).SitAt seat₂ _ _)

theorem leveled_unitItems (h : s.Resting) (hseated : s.Seated seat) (index : Nat) :
    ∀ item ∈ s.unitItems index, Leveled seat s item.id := by
  unfold unitItems
  cases hget : s.units[index]? with
  | none => exact fun _ hmem => absurd hmem List.not_mem_nil
  | some u =>
    intro item hitem
    obtain ⟨hlt, hseat⟩ := (hseated.units u (List.mem_of_getElem? hget)).2 item.id
      (Item.mem_allLines.mpr ⟨item, hitem, item.id_mem_lines⟩)
    exact ⟨hlt, by rw [hseat, h.atRest.depth]⟩

theorem analyzeFiles (h : s.Resting) : s.analyzeFiles.Resting := by
  unfold Assembly.analyzeFiles
  simp only
  generalize List.range' s.analyzed (s.units.length - s.analyzed) = indices
  have hparse : (s.analyzeUnits indices).Resting := by
    unfold Assembly.analyzeUnits
    refine List.foldlRecOn indices _ (List.foldlRecOn indices _ (List.foldlRecOn indices _ h ?_) ?_) ?_
    · exact fun s h index _ => h.declareUnit index
    · exact fun s h index _ => h.confined fun seat hseated =>
        confined_resolveWithin .full seat s _ h.kept hseated (h.leveled_unitItems hseated index)
    · exact fun s h index _ => h.proceeds (Kept.parseWithin .full s (s.unitItems index) h.kept)
  exact hparse.congr (hparse.kept.congr rfl rfl rfl rfl rfl rfl rfl rfl) rfl rfl (hparse.atRest.congr rfl rfl rfl)

end Resting

/-! ## Passes -/

/-- A file is compiled where its lines stand, and then the next. -/
theorem confined_compileUnits (budget : Budget) (units : List SourceUnit) (hs : s.Kept .scopes)
    (hseated : s.Seated seat) (hdepth : s.depth = 0) (hbounded : s.Bounded)
    (hsit : ∀ u ∈ units, s.SitAt seat u.items (0, [u.path])) :
    let compileAt := fun s (u : SourceUnit) => (compileWithin budget (s.openUnit u.path) u.items).2
    (units.foldl compileAt s).depth = 0 ∧ (units.foldl compileAt s).Bounded ∧
      ∃ seat', (units.foldl compileAt s).Seated seat' := by
  intro compileAt
  induction units generalizing s seat with
  | nil => exact ⟨hdepth, hbounded, seat, hseated⟩
  | cons u units ih =>
    obtain ⟨hu, hrest⟩ := List.forall_mem_cons.mp hsit
    have hplace : ((s.openUnit u.path).depth, (s.openUnit u.path).includeStack) = (0, [u.path]) :=
      congrArg (·, [u.path]) hdepth
    have hcompile := confined_compileWithin budget seat (s.openUnit u.path) u.items (hs.congr rfl rfl rfl rfl rfl rfl rfl rfl)
      (hseated.congr rfl rfl) (hplace.symm ▸ hu)
    obtain ⟨seat', hagree, hseated'⟩ := hcompile.seated
    have hcarries := hcompile.analyses.carries
    refine ih hcarries.orderly.kept hseated' (hcarries.depth.trans hdepth)
      (hcompile.analyses.bounded (AtRest.bounded_openUnit hdepth hbounded u.path)) fun other hother => ?_
    exact (hrest other hother).carry hcarries.size hagree

namespace Resting

theorem runPass (h : s.Resting) (index : Nat) (last : Bool) : (s.runPass index last).Resting := by
  have hbegin : (s.beginPass index last).Resting :=
    h.congr (h.kept.beginPass index last) rfl rfl (h.atRest.congr rfl rfl rfl)
  obtain ⟨seat, hseated⟩ := hbegin.seated
  obtain ⟨hdepth, hbounded, seat', hseated'⟩ := confined_compileUnits .full (s.beginPass index last).units hbegin.kept
    hseated hbegin.atRest.depth hbegin.atRest.bounded fun u hu => (hseated.units u hu).2
  exact ⟨h.kept.runPass (fun h => h) index last, ⟨seat', hseated'.congr rfl rfl⟩, AtRest.closeUnits hdepth hbounded⟩

theorem runPassesFrom (total bound : Nat) (h : s.Resting) (index : Nat) (last : Bool) :
    (Assembly.runPassesFrom total bound s index last).Resting := by
  induction bound generalizing s index last with
  | zero => exact h
  | succ bound ih =>
    have hpass := h.runPass index last
    unfold Assembly.runPassesFrom
    simp only
    split
    · exact hpass
    · split
      · split
        · exact hpass.proceeds ⟨nofun, hpass.kept.orderly.report _⟩
        · exact hpass
      · exact ih hpass _ _

end Resting

/-! ## Histories -/

theorem Context.resting {settings : Settings} {files : Files} (h : Context settings files s) : s.Resting := by
  induction h with
  | begin =>
    refine ⟨⟨nofun, fun _ => scoped_begin True settings files⟩, ⟨fun _ => (0, []), ?_, ?_⟩, atRest_begin settings files⟩
    · exact fun _ hu => absurd hu List.not_mem_nil
    · exact fun _ _ hx => absurd hx List.not_mem_nil
  | tell stopped _ ih => exact ih.congr (ih.kept.congr rfl rfl rfl rfl rfl rfl rfl rfl) rfl rfl (ih.atRest.congr rfl rfl rfl)
  | addFile path text _ ih => exact ih.addFile path text
  | analyzeFiles _ ih => exact ih.analyzeFiles
  | compile _ ih => exact ih.analyzeFiles.runPassesFrom _ _ _ _

theorem nesting_releaseSources (s : Assembly) (sources : List SourceId) :
    (s.releaseSources sources).depth = s.depth ∧ (s.releaseSources sources).includeStack = s.includeStack ∧
      (s.releaseSources sources).nestings = s.nestings := by
  unfold releaseSources
  simp only
  generalize s.lines.release _ = lines
  have hsources : ∀ (sources : List SourceId) (s : Assembly), (sources.foldl releaseSource s).depth = s.depth ∧
      (sources.foldl releaseSource s).includeStack = s.includeStack ∧
      (sources.foldl releaseSource s).nestings = s.nestings := by
    intro sources
    induction sources with
    | nil => exact fun s => ⟨rfl, rfl, rfl⟩
    | cons source sources ih => exact fun s => ih (releaseSource s source)
  exact hsources sources _

theorem AtRest.releaseSources (h : s.AtRest) (sources : List SourceId) : (s.releaseSources sources).AtRest := by
  obtain ⟨hdepth, hstack, hnestings⟩ := nesting_releaseSources s sources
  exact h.congr hdepth hstack hnestings

end Assembly

namespace Session

open Assembly

theorem Edited.atRest {settings : Settings} {files : Files} {s : Session} (h : Edited settings files s) :
    s.assembly.AtRest := by
  induction h with
  | begin => exact atRest_begin settings files
  | tell stopped _ ih => exact ih.congr rfl rfl rfl
  | @setFile s path text _ ih =>
    unfold Session.setFile
    simp only
    split
    · rename_i index u _ _
      have hrelease := ih.releaseSources (ownedSources u).reverse
      have hload := hrelease.loadSource path text
      unfold release
      generalize (s.assembly.releaseSources (ownedSources u).reverse).loadSource path text = loaded at hload ⊢
      have hset : ∀ units, { loaded.2 with units }.AtRest := fun _ => hload.congr rfl rfl rfl
      exact ((hset _).analyzeUnits [index]).congr rfl rfl rfl
    · exact ((ih.addFile path text).analyzeUnits [s.assembly.units.length]).congr rfl rfl rfl
  | @removeFile s path _ ih =>
    unfold Session.removeFile
    split
    · rename_i index u _ _
      have hrelease : (release s.assembly u).AtRest := ih.releaseSources (ownedSources u).reverse
      exact hrelease.congr rfl rfl rfl
    · exact ih

end Session

/-! ## Limits and balance -/

namespace Assembly

/-- Whether two assemblies are equally deep. -/
def SameNesting (s s' : Assembly) : Prop := s'.depth = s.depth ∧ s'.includeStack = s.includeStack

theorem Advances.sameNesting (h : Advances r s s') : SameNesting s s' := ⟨h.carries.depth, h.carries.includeStack⟩

end Assembly

/-- Whatever is done to an assembly or a session, the nesting is within its limits at every moment, and nothing is left
open. It is not the budget that limits it: with any budget, analysis and compiling keep within the limits. And every
phase and every compiled line leave the nesting as they found it, whatever state they begin with. -/
theorem nesting_bounded_and_balanced (settings : Settings) (files : Files) :
    (∀ s : Assembly, (s.Context settings files ∨ ∃ session, Session.Edited settings files session ∧ session.assembly = s) →
      s.depth = 0 ∧ s.includeStack = [] ∧ s.Bounded) ∧
    (∀ (budget : Budget) (s : Assembly) (items : List Item), s.Bounded →
      (Assembly.declareWithin budget s items).Bounded ∧ (Assembly.resolveWithin budget s items).Bounded ∧
        (Assembly.parseWithin budget s items).Bounded) ∧
    (∀ (budget : Budget) (s : Assembly), s.Context settings files → ∀ u ∈ s.units,
      (Assembly.compileWithin budget (s.openUnit u.path) u.items).2.Bounded) ∧
    (∀ (budget : Budget) (s : Assembly) (items : List Item),
      s.SameNesting (Assembly.declareWithin budget s items) ∧ s.SameNesting (Assembly.resolveWithin budget s items) ∧
        s.SameNesting (Assembly.parseWithin budget s items)) ∧
    ∀ (calls files : Budget) (s : Assembly) (item : Item),
      s.SameNesting (Assembly.compileItem (Assembly.compileWithin calls) (Assembly.compileWithin files) item s).2 := by
  have hfree := Assembly.AtRest.kept_of_false
  refine ⟨fun s hs => ?_, fun budget s items hbounded => ⟨?_, ?_, ?_⟩, fun budget s hs u hu => ?_,
    fun budget s items => ⟨?_, ?_, ?_⟩, fun calls files s item => ?_⟩
  · obtain ⟨hdepth, hstack, hbounded⟩ : s.AtRest := by
      rcases hs with hcontext | ⟨session, hedited, rfl⟩
      · exact hcontext.resting.atRest
      · exact hedited.atRest
    exact ⟨hdepth, hstack, hbounded⟩
  · exact (Assembly.analyses_declareWithin budget s items (hfree s)).bounded hbounded
  · exact (Assembly.analyses_resolveWithin budget s items (hfree s)).bounded hbounded
  · exact (Assembly.Kept.parseWithin budget s items (hfree s)).analyses.bounded hbounded
  · obtain ⟨hkept, ⟨seat, hseated⟩, hrest⟩ := hs.resting
    exact (Assembly.confined_compileUnits budget [u] hkept hseated hrest.depth hrest.bounded
      (List.forall_mem_singleton.mpr (hseated.units u hu).2)).2.1
  · exact (Assembly.analyses_declareWithin budget s items (hfree s)).toAdvances.sameNesting
  · exact (Assembly.analyses_resolveWithin budget s items (hfree s)).toAdvances.sameNesting
  · exact (Assembly.Kept.parseWithin budget s items (hfree s)).advances.sameNesting
  · exact (Assembly.advances_compileItem id (Assembly.advances_compileWithin id calls)
      (Assembly.advances_compileWithin id files) item s (hfree s)).sameNesting

/-- A file that calls a macro and includes the file it is included by, under another name. -/
def circularFiles : Files := fun path =>
  if path = "part.asm" then .file ("two\n.INCLUDE \"./main.asm\"\n".toList.map fun c => c.toNat.toUInt8) else .missing

/-- A macro with a repetition, and the file that calls it. -/
def circularWork : Assembly :=
  (Assembly.begin {} circularFiles).addFile "main.asm" ".MACRO two\n.REPEAT 2\n.DB 1\n.ENDR\n.ENDM\n.INCLUDE \"part.asm\"\n"

/-- The work gets two calls and two files deep. -/
theorem nesting_circularWork : circularWork.compile.nestings.contains (2, ["part.asm", "main.asm"]) = true ∧
      (circularWork.compile.depth = 0 ∧ circularWork.compile.includeStack = [] ∧ circularWork.compile.Bounded) ∧
      (Assembly.declareWithin .full circularWork.compile []).Bounded ∧
      ∀ u ∈ circularWork.compile.units,
        (Assembly.compileWithin .full (circularWork.compile.openUnit u.path) u.items).2.Bounded := by
  have hbegin : (Assembly.begin {} circularFiles).Context {} circularFiles := .begin
  have hcontext : circularWork.compile.Context {} circularFiles := by
    unfold circularWork
    exact (hbegin.addFile _ _).compile
  have hdeep : circularWork.compile.nestings.contains (2, ["part.asm", "main.asm"]) = true := by decide +kernel
  obtain ⟨hhistories, hphases, hcompile, -⟩ := nesting_bounded_and_balanced {} circularFiles
  have hrest := hhistories _ (.inl hcontext)
  exact ⟨hdeep, hrest, (hphases .full _ [] hrest.2.2).1, hcompile .full _ hcontext⟩

end CrossAssembler
