import CrossAssembler.Proofs.Assembly.Outline

/-!
# Lines whose blocks are in order

Arranging lines reports what is wrong with their blocks and nothing else. It reports nothing about lines whose
blocks are in order, and something about all others.

Principal result: `quiet_arrange` — arranging reports nothing about fresh lines exactly when they are tidy.
-/

namespace CrossAssembler

/-- Whether a line has no label and its directive no arguments. -/
def Line.IsBare (l : Line) : Prop := l.label = none ∧ ∀ part ∈ l.command?, part.arguments = []

/-- Nothing may stand on a line that ends a block. -/
theorem Directive.spec_of_closer {d closer : Directive} (h : d.spec.closer = some closer) :
    closer.spec.least = 0 ∧ closer.spec.most = some 0 ∧ closer.spec.allowsLabel = false := by
  cases d <;> cases h <;> exact ⟨rfl, rfl, rfl⟩

namespace Assembly

variable {s s' s'' : Assembly}

/-- Whether at most lines have changed and diagnostics were added. -/
def Annotates (s s' : Assembly) : Prop :=
  ∃ lines added, s' = { s with lines, diagnostics := s.diagnostics ++ added }

/-- Whether nothing was reported. -/
def Quiet (s s' : Assembly) : Prop := s'.diagnostics = s.diagnostics

theorem quiet_trans_iff (h : ∃ added, s'.diagnostics = s.diagnostics ++ added)
    (h' : ∃ added, s''.diagnostics = s'.diagnostics ++ added) : Quiet s s'' ↔ Quiet s s' ∧ Quiet s' s'' := by
  obtain ⟨added, h⟩ := h
  obtain ⟨added', h'⟩ := h'
  have hlater : Quiet s' s'' ↔ added' = #[] := by rw [Quiet, h', Array.append_right_eq_self]
  rw [hlater, Quiet, Quiet, h', h, Array.append_assoc, Array.append_right_eq_self, Array.append_right_eq_self,
    Array.append_eq_empty_iff]

namespace Annotates

theorem refl (s : Assembly) : Annotates s s := ⟨s.lines, #[], by rw [Array.append_empty]⟩

theorem trans (h : Annotates s s') (h' : Annotates s' s'') : Annotates s s'' := by
  obtain ⟨lines, added, rfl⟩ := h
  obtain ⟨lines', added', rfl⟩ := h'
  exact ⟨lines', added ++ added', by simp only [Array.append_assoc]⟩

theorem modifyLine (s : Assembly) (id : LineId) (f : Line → Line) : Annotates s (s.modifyLine id f) :=
  ⟨s.lines.modify id f, #[], by rw [Array.append_empty]; rfl⟩

theorem fail (s : Assembly) (id : LineId) (span : Span) (message : String) : Annotates s (s.fail id span message) :=
  ⟨_, #[{ severity := .error, message, primary := span }], rfl⟩

theorem foldl {α : Type} {f : Assembly → α → Assembly} (h : ∀ s a, Annotates s (f s a)) (l : List α) (s : Assembly) :
    Annotates s (l.foldl f s) := by
  induction l generalizing s with
  | nil => exact refl s
  | cons a l ih => exact (h s a).trans (ih (f s a))

theorem stopped (h : Annotates s s') : s'.stopped = s.stopped := by
  obtain ⟨lines, added, rfl⟩ := h
  rfl

theorem added (h : Annotates s s') : ∃ added, s'.diagnostics = s.diagnostics ++ added := by
  obtain ⟨lines, added, rfl⟩ := h
  exact ⟨added, rfl⟩

theorem quiet_iff (h : Annotates s s') (h' : Annotates s' s'') : Quiet s s'' ↔ Quiet s s' ∧ Quiet s' s'' :=
  quiet_trans_iff h.added h'.added

end Annotates

theorem not_quiet_fail (s : Assembly) (id : LineId) (span : Span) (message : String) :
    ¬ Quiet s (s.fail id span message) := fun h => by
  have hsize : s.diagnostics.size + 1 = s.diagnostics.size :=
    (Array.size_push _).symm.trans (congrArg Array.size h)
  omega

/-! ## Lines that end a block -/

theorem checkArguments_cases (s : Assembly) (id : LineId) :
    s.checkArguments id = s ∨ ∃ span message, s.checkArguments id = s.fail id span message := by
  unfold checkArguments
  split
  · exact .inl rfl
  simp only
  split
  · exact .inr ⟨_, _, rfl⟩
  · split
    · split
      · exact .inr ⟨_, _, rfl⟩
      · exact .inl rfl
    · exact .inl rfl

theorem checkLabel_cases (s : Assembly) (id : LineId) :
    (s.checkLabel id).2 = s ∨ ∃ span message, (s.checkLabel id).2 = s.fail id span message := by
  unfold checkLabel
  simp only
  split
  · split
    · exact .inl rfl
    · exact .inr ⟨_, _, rfl⟩
  · exact .inl rfl

theorem Annotates.of_cases {id : LineId} (h : s' = s ∨ ∃ span message, s' = s.fail id span message) :
    Annotates s s' := by
  obtain rfl | ⟨span, message, rfl⟩ := h
  · exact .refl s'
  · exact .fail s id span message

theorem eq_of_quiet {id : LineId} (h : s' = s ∨ ∃ span message, s' = s.fail id span message)
    (hquiet : Quiet s s') : s' = s := by
  obtain heq | ⟨span, message, rfl⟩ := h
  · exact heq
  · exact absurd hquiet (not_quiet_fail s id span message)

theorem Annotates.closeBlock (s : Assembly) (id : LineId) : Annotates s (s.closeBlock id) :=
  ((of_cases (checkArguments_cases s id)).trans (of_cases (checkLabel_cases _ id))).trans (modifyLine _ id _)

variable {id stop : LineId} {part : Line.CommandPart} {d closer : Directive} {rest body after : List LineId}

theorem quiet_checkArguments (hpart : (s.line id).command? = some part) (hleast : part.directive.spec.least = 0)
    (hmost : part.directive.spec.most = some 0) : Quiet s (s.checkArguments id) ↔ part.arguments = [] := by
  unfold checkArguments
  simp only [hpart, hleast, hmost, Nat.not_lt_zero, if_false]
  by_cases harguments : part.arguments = []
  · simp [harguments, Quiet]
  · rw [if_pos (List.length_pos_iff.mpr harguments)]
    simp only [harguments, iff_false]
    exact not_quiet_fail s id _ _

theorem quiet_checkLabel (hdirective : (s.line id).directive? = some d) (hlabel : d.spec.allowsLabel = false) :
    Quiet s (s.checkLabel id).2 ↔ (s.line id).label = none := by
  unfold checkLabel
  simp only [hdirective]
  cases hl : (s.line id).label with
  | none => simp [Quiet]
  | some label =>
    simp only [hlabel, Bool.false_eq_true, if_false, reduceCtorEq, iff_false]
    exact not_quiet_fail s id _ _

theorem quiet_closeBlock (hcloser : d.spec.closer = some closer) (hdirective : s.directives id = some closer) :
    Quiet s (s.closeBlock id) ↔ (s.line id).IsBare := by
  obtain ⟨hleast, hmost, hlabel⟩ := Directive.spec_of_closer hcloser
  obtain ⟨part, hpart, rfl⟩ := Option.map_eq_some_iff.mp hdirective
  have harguments := quiet_checkArguments hpart hleast hmost
  have hall : (∀ p ∈ (s.line id).command?, p.arguments = []) ↔ part.arguments = [] := by
    simp only [hpart, Option.mem_some_iff, forall_eq']
  have hmark : Quiet s (s.closeBlock id) ↔ Quiet s ((s.checkArguments id).checkLabel id).2 := Iff.rfl
  rw [hmark, (Annotates.of_cases (checkArguments_cases s id)).quiet_iff (.of_cases (checkLabel_cases _ id)),
    Line.IsBare, hall, ← harguments]
  constructor
  · rintro ⟨hfirst, hsecond⟩
    rw [eq_of_quiet (checkArguments_cases s id) hfirst] at hsecond
    exact ⟨(quiet_checkLabel hdirective hlabel).mp hsecond, hfirst⟩
  · rintro ⟨hnone, hfirst⟩
    refine ⟨hfirst, ?_⟩
    rw [eq_of_quiet (checkArguments_cases s id) hfirst]
    exact (quiet_checkLabel hdirective hlabel).mpr hnone

/-! ## Dividers after the last branch -/

theorem Annotates.rejectDividers (s : Assembly) (ids : List LineId) : Annotates s (s.rejectDividers ids) := by
  refine foldl (fun s id => ?_) ids s
  simp only
  split
  · exact fail s id _ _
  · exact refl s

theorem quiet_rejectDividers {ids : List LineId} (h : ∀ id ∈ ids, s.directives id ≠ none) :
    Quiet s (s.rejectDividers ids) ↔ ids = [] := by
  cases ids with
  | nil => exact ⟨fun _ => rfl, fun _ => rfl⟩
  | cons id ids =>
    obtain ⟨d, hd⟩ := Option.ne_none_iff_exists'.mp (h id List.mem_cons_self)
    have hstep : s.rejectDividers (id :: ids) =
        (s.fail id (s.line id).origin.span s!"{d.name} after .ELSE").rejectDividers ids := by
      unfold Assembly.rejectDividers
      rw [List.foldl_cons]
      simp only [show (s.line id).directive? = some d from hd]
    rw [hstep, (Annotates.fail s id _ _).quiet_iff (.rejectDividers _ ids)]
    simp only [not_quiet_fail, false_and, reduceCtorEq]

/-! ## Tidy lines -/

/-- Whether every block among some lines is in order: it is ended by a line that bears nothing else, a
conditional has no divider after its last branch and its branches are in order too, and no line that is meant
for a block stands outside of one. -/
inductive Tidy (s : Assembly) : List LineId → Prop
  | nil : Tidy s []
  | line {id : LineId} {rest : List LineId}
      (hplain : ∀ d, s.directives id = some d → d.spec.closer = none ∧ needsBlock d = false)
      (hrest : Tidy s rest) : Tidy s (id :: rest)
  | block {id stop : LineId} {d closer : Directive} {rest body after : List LineId} (hdirective : s.directives id = some d)
      (hcloser : d.spec.closer = some closer) (hkept : d.isConditional = false)
      (hends : splitAtCloser s.directives closer 0 rest = some (body, stop, after))
      (hbare : (s.line stop).IsBare) (hafter : Tidy s after) : Tidy s (id :: rest)
  | conditional {id stop : LineId} {d closer : Directive} {rest body after : List LineId} (hdirective : s.directives id = some d)
      (hcloser : d.spec.closer = some closer) (hconditional : d.isConditional = true)
      (hends : splitAtCloser s.directives closer 0 rest = some (body, stop, after))
      (hbare : (s.line stop).IsBare) (hrejected : (divide s.directives 0 false body).rejected = [])
      (hfirst : Tidy s (divide s.directives 0 false body).first)
      (hbranches : ∀ b ∈ (divide s.directives 0 false body).branches, Tidy s b.2)
      (hafter : Tidy s after) : Tidy s (id :: rest)

namespace Tidy

theorem congr {ids : List LineId} (h : Tidy s ids) (hdirectives : s'.directives = s.directives)
    (hlines : ∀ id ∈ ids, s'.line id = s.line id) : Tidy s' ids := by
  induction h with
  | nil => exact nil
  | line hplain _ ih =>
    exact line (hdirectives ▸ hplain) (ih fun j hj => hlines j (List.mem_cons_of_mem _ hj))
  | block hdirective hcloser hkept hends hbare _ ih =>
    obtain rfl := splitAtCloser_eq hends
    refine block (hdirectives ▸ hdirective) hcloser hkept (hdirectives ▸ hends) ?_ (ih fun j hj => hlines j (by simp [hj]))
    rwa [hlines _ (by simp)]
  | @conditional _ _ _ _ _ body _ hdirective hcloser hconditional hends hbare hrejected _ _ _ ihfirst ihbranches ih =>
    obtain rfl := splitAtCloser_eq hends
    have hof := divide_of s.directives body 0 false
    have hbody : ∀ {ids : List LineId}, ids.Sublist body → ∀ j ∈ ids, s'.line j = s.line j :=
      fun hsub j hj => hlines j (by simp [hsub.subset hj])
    refine conditional (hdirectives ▸ hdirective) hcloser hconditional (hdirectives ▸ hends) ?_ ?_ ?_ ?_
      (ih fun j hj => hlines j (by simp [hj]))
    · rwa [hlines _ (by simp)]
    · rwa [hdirectives]
    · rw [hdirectives]
      exact ihfirst (hbody hof.first)
    · rw [hdirectives]
      exact fun b hb => ihbranches b hb (hbody (hof.branches hb).2)

theorem congr_iff {ids : List LineId} (hdirectives : s'.directives = s.directives)
    (hlines : ∀ id ∈ ids, s'.line id = s.line id) : Tidy s' ids ↔ Tidy s ids :=
  ⟨fun h => h.congr hdirectives.symm fun id hid => (hlines id hid).symm, fun h => h.congr hdirectives hlines⟩

theorem line_iff (h : ∀ d, s.directives id = some d → d.spec.closer = none) :
    Tidy s (id :: rest) ↔ (∀ d, s.directives id = some d → needsBlock d = false) ∧ Tidy s rest := by
  constructor
  · intro htidy
    cases htidy with
    | line hplain hrest => exact ⟨fun d hd => (hplain d hd).2, hrest⟩
    | block hdirective hcloser =>
      rw [h _ hdirective] at hcloser
      cases hcloser
    | conditional hdirective hcloser =>
      rw [h _ hdirective] at hcloser
      cases hcloser
  · rintro ⟨hplain, hrest⟩
    exact line (fun d hd => ⟨h d hd, hplain d hd⟩) hrest

/-- A block is in order when nothing is wrong from its first line to its last, and after it. -/
theorem block_iff (hdirective : s.directives id = some d) (hcloser : d.spec.closer = some closer)
    (hends : splitAtCloser s.directives closer 0 rest = some (body, stop, after)) :
    Tidy s (id :: rest) ↔ ((s.line stop).IsBare ∧ (d.isConditional = true →
      (divide s.directives 0 false body).rejected = [] ∧
        ∀ b ∈ (id, (divide s.directives 0 false body).first) :: (divide s.directives 0 false body).branches,
          Tidy s b.2)) ∧ Tidy s after := by
  constructor
  · intro htidy
    cases htidy with
    | line hplain =>
      rw [(hplain _ hdirective).1] at hcloser
      cases hcloser
    | block hdirective' hcloser' hkept hends' hbare hafter =>
      obtain rfl := Option.some.inj (hdirective.symm.trans hdirective')
      obtain rfl := Option.some.inj (hcloser.symm.trans hcloser')
      rw [hends] at hends'
      cases hends'
      refine ⟨⟨hbare, fun hconditional => ?_⟩, hafter⟩
      rw [hkept] at hconditional
      cases hconditional
    | conditional hdirective' hcloser' _ hends' hbare hrejected hfirst hbranches hafter =>
      obtain rfl := Option.some.inj (hdirective.symm.trans hdirective')
      obtain rfl := Option.some.inj (hcloser.symm.trans hcloser')
      rw [hends] at hends'
      cases hends'
      exact ⟨⟨hbare, fun _ => ⟨hrejected, List.forall_mem_cons.mpr ⟨hfirst, hbranches⟩⟩⟩, hafter⟩
  · rintro ⟨⟨hbare, hbranches⟩, hafter⟩
    cases hconditional : d.isConditional with
    | false => exact block hdirective hcloser hconditional hends hbare hafter
    | true =>
      obtain ⟨hrejected, hall⟩ := hbranches hconditional
      obtain ⟨hfirst, hothers⟩ := List.forall_mem_cons.mp hall
      exact conditional hdirective hcloser hconditional hends hbare hrejected hfirst hothers hafter

theorem not_unmatched (hdirective : s.directives id = some d) (hcloser : d.spec.closer = some closer)
    (hends : splitAtCloser s.directives closer 0 rest = none) : ¬ Tidy s (id :: rest) := by
  intro htidy
  cases htidy with
  | line hplain =>
    rw [(hplain _ hdirective).1] at hcloser
    cases hcloser
  | block hdirective' hcloser' _ hends' | conditional hdirective' hcloser' _ hends' =>
    obtain rfl := Option.some.inj (hdirective.symm.trans hdirective')
    obtain rfl := Option.some.inj (hcloser.symm.trans hcloser')
    rw [hends] at hends'
    cases hends'

end Tidy

/-! ## Arranging -/

/-- What a way to arrange lines reports: nothing about short enough lists of fresh lines in order, something about
others. -/
def Judges (bound : Nat) (arrange : Assembly → List LineId → List Item × Assembly) : Prop :=
  ∀ (s : Assembly) (ids : List LineId), ids.length ≤ bound → ids.Nodup → (∀ id ∈ ids, (s.line id).IsFresh) →
    (Quiet s (arrange s ids).2 ↔ Tidy s ids)

section

variable {bound : Nat} {arrange : Assembly → List LineId → List Item × Assembly}

theorem annotates_arrangeBranches (h : ∀ s ids, Annotates s (arrange s ids).2) (branches : List (LineId × List LineId))
    (s : Assembly) : Annotates s (arrangeBranches arrange s branches).2 := by
  induction branches generalizing s with
  | nil => exact .refl s
  | cons b branches ih => exact (h s b.2).trans (ih _)

theorem annotates_arrangeBlock (h : ∀ s ids, Annotates s (arrange s ids).2) (s : Assembly) (id : LineId) (d : Directive)
    (body : List LineId) (stop : LineId) : Annotates s (arrangeBlock arrange s id d body stop).2 := by
  unfold arrangeBlock
  simp only
  split
  · exact (((Annotates.closeBlock s stop).trans (.rejectDividers _ _)).trans (annotates_arrangeBranches h _ _)).trans
      (.modifyLine _ id _)
  · exact (Annotates.closeBlock s stop).trans (.modifyLine _ id _)

theorem annotates_arrangeWithin (bound : Nat) (s : Assembly) (ids : List LineId) :
    Annotates s (arrangeWithin bound s ids).2 := by
  induction bound generalizing s ids with
  | zero => exact .refl s
  | succ bound ih =>
    cases ids with
    | nil => exact .refl s
    | cons id rest =>
      unfold arrangeWithin
      simp only
      split
      · split
        · split
          · exact (Annotates.fail s id _ _).trans (.foldl (fun s j => .modifyLine s j _) rest _)
          · exact (annotates_arrangeBlock ih s id _ _ _).trans (ih _ _)
        · refine Annotates.trans ?_ (ih _ _)
          split
          · exact .fail s id _ _
          · exact .refl s
      · exact ih s rest

theorem quiet_arrangeBranches (harrange : Arranges bound arrange) (hjudge : Judges bound arrange)
    (hannotates : ∀ s ids, Annotates s (arrange s ids).2) (branches : List (LineId × List LineId)) (s : Assembly)
    (hbound : ∀ b ∈ branches, b.2.length ≤ bound) (hnodup : (branches.flatMap Prod.snd).Nodup)
    (hfresh : ∀ id ∈ branches.flatMap Prod.snd, (s.line id).IsFresh) :
    Quiet s (arrangeBranches arrange s branches).2 ↔ ∀ b ∈ branches, Tidy s b.2 := by
  induction branches generalizing s with
  | nil => exact ⟨fun _ => nofun, fun _ => rfl⟩
  | cons b branches ih =>
    obtain ⟨header, body⟩ := b
    rw [List.flatMap_cons] at hnodup hfresh
    have hapart := List.disjoint_of_nodup_append hnodup
    have hbody : ∀ id ∈ body, (s.line id).IsFresh := fun id hid => hfresh id (List.mem_append_left _ hid)
    obtain ⟨htouch, -⟩ := harrange s body (hbound _ List.mem_cons_self) hnodup.of_append_left hbody
    -- no branch changes the lines of another
    have hkept : ∀ id ∈ branches.flatMap Prod.snd, (arrange s body).2.line id = s.line id :=
      fun id hid => htouch.others id fun hin => hapart hin hid
    have hrest := ih (arrange s body).2 (fun b hb => hbound b (List.mem_cons_of_mem _ hb)) hnodup.of_append_right
      fun id hid => by
        rw [hkept id hid]
        exact hfresh id (List.mem_append_right _ hid)
    rw [arrangeBranches, List.forall_mem_cons, ← hjudge s body (hbound _ List.mem_cons_self) hnodup.of_append_left hbody]
    refine ((hannotates s body).quiet_iff (annotates_arrangeBranches hannotates branches _)).trans
      (and_congr_right fun _ => hrest.trans ?_)
    refine forall₂_congr fun b hb => Tidy.congr_iff htouch.directives fun id hid => ?_
    exact hkept id (List.mem_flatMap.mpr ⟨b, hb, hid⟩)

namespace IsBlock

theorem quiet_conditional (h : IsBlock s id part closer body stop) (harrange : Arranges bound arrange)
    (hjudge : Judges bound arrange) (hannotates : ∀ s ids, Annotates s (arrange s ids).2) (hbound : body.length ≤ bound)
    (hconditional : part.directive.isConditional = true) :
    Quiet (s.closeBlock stop) (arrangeBlock arrange s id part.directive body stop).2 ↔
      (divide s.directives 0 false body).rejected = [] ∧
        ∀ b ∈ (id, (divide s.directives 0 false body).first) :: (divide s.directives 0 false body).branches,
          Tidy s b.2 := by
  have hclose := Marks.closeBlock s stop
  have hdirectives : (fun id => ((s.closeBlock stop).line id).directive?) = s.directives := hclose.touches.directives
  unfold arrangeBlock
  simp only [if_pos hconditional]
  rw [hdirectives]
  have hdivided := divided 0 false body (h.family hconditional ▸ h.ends.inside)
  have hof := divide_of s.directives body 0 false
  generalize divide s.directives 0 false body = d at hdivided hof ⊢
  have hreject : Quiet (s.closeBlock stop) ((s.closeBlock stop).rejectDividers d.rejected) ↔ d.rejected = [] := by
    refine quiet_rejectDividers fun j hj => ?_
    rw [hclose.touches.directives]
    rcases (hdivided.rejected j hj).1 with hdivider | hdivider <;> rw [hdivider] <;> exact Option.some_ne_none _
  have hbranches := annotates_arrangeBranches hannotates ((id, d.first) :: d.branches)
    ((s.closeBlock stop).rejectDividers d.rejected)
  refine ((Annotates.rejectDividers (s.closeBlock stop) d.rejected).quiet_iff hbranches).trans ?_
  rw [hreject]
  refine and_congr_right fun hnone => ?_
  rw [hnone]
  -- the branches are parts of the block, whose lines have not changed yet
  have hsub : (d.first ++ d.branches.flatMap Prod.snd).Sublist body :=
    ((List.Sublist.refl d.first).append (bodies_sublist d.branches)).trans hof.kept
  have hkept : ∀ j ∈ d.first ++ d.branches.flatMap Prod.snd, (s.closeBlock stop).line j = s.line j := fun j hj =>
    hclose.others j fun hin => h.stop_not_mem (List.mem_singleton.mp hin ▸ hsub.subset hj)
  refine (quiet_arrangeBranches harrange hjudge hannotates ((id, d.first) :: d.branches) (s.closeBlock stop)
    (fun b hb => ?_) (hsub.nodup (List.nodup_cons.mp h.nodup).2.of_append_left) fun j hj => ?_).trans ?_
  · rcases List.mem_cons.mp hb with rfl | hb
    · exact hof.first.length_le.trans hbound
    · exact (hof.branches hb).2.length_le.trans hbound
  · rw [hkept j hj]
    exact h.fresh_body (hsub.subset hj)
  · refine forall₂_congr fun b hb => Tidy.congr_iff hclose.touches.directives fun j hj => hkept j ?_
    exact List.mem_flatMap.mpr ⟨b, hb, hj⟩

theorem quiet_arrangeBlock (h : IsBlock s id part closer body stop) (harrange : Arranges bound arrange)
    (hjudge : Judges bound arrange) (hannotates : ∀ s ids, Annotates s (arrange s ids).2) (hbound : body.length ≤ bound) :
    Quiet s (arrangeBlock arrange s id part.directive body stop).2 ↔ (s.line stop).IsBare ∧
      (part.directive.isConditional = true → (divide s.directives 0 false body).rejected = [] ∧
        ∀ b ∈ (id, (divide s.directives 0 false body).first) :: (divide s.directives 0 false body).branches,
          Tidy s b.2) := by
  have hbare := quiet_closeBlock h.closes h.ends.keyword
  cases hconditional : part.directive.isConditional with
  | false =>
    unfold arrangeBlock
    simp only [hconditional, Bool.false_eq_true, if_false, false_implies, and_true]
    exact hbare
  | true =>
    have hafter : Annotates (s.closeBlock stop) (arrangeBlock arrange s id part.directive body stop).2 := by
      unfold arrangeBlock
      simp only [if_pos hconditional]
      exact ((Annotates.rejectDividers _ _).trans (annotates_arrangeBranches hannotates _ _)).trans (.modifyLine _ id _)
    rw [(Annotates.closeBlock s stop).quiet_iff hafter, hbare,
      h.quiet_conditional harrange hjudge hannotates hbound hconditional]
    simp only [true_implies]

end IsBlock

end

/-- Nothing is reported about lines when nothing is about those in front and nothing about the others. -/
theorem quiet_cons {bound : Nat} (hjudge : Judges bound (arrangeWithin bound)) {front : List LineId}
    (hbound : rest.length ≤ bound) (hnodup : (front ++ rest).Nodup) (hfresh : ∀ id ∈ rest, (s.line id).IsFresh)
    (htouch : Touches front s s') (hannotates : Annotates s s') :
    Quiet s (arrangeWithin bound s' rest).2 ↔ Quiet s s' ∧ Tidy s rest := by
  have hkept : ∀ id ∈ rest, s'.line id = s.line id := fun id hid =>
    htouch.others id fun hin => List.disjoint_of_nodup_append hnodup hin hid
  rw [hannotates.quiet_iff (annotates_arrangeWithin bound s' rest), hjudge s' rest hbound hnodup.of_append_right
    fun id hid => by rw [hkept id hid]; exact hfresh id hid, Tidy.congr_iff htouch.directives hkept]

theorem judges_arrangeWithin (bound : Nat) : Judges bound (arrangeWithin bound) := by
  induction bound with
  | zero =>
    intro s ids hlength _ _
    obtain rfl := List.eq_nil_of_length_eq_zero (Nat.le_zero.mp hlength)
    exact ⟨fun _ => .nil, fun _ => rfl⟩
  | succ bound ih =>
    intro s ids hlength hnodup hfresh
    cases ids with
    | nil => exact ⟨fun _ => .nil, fun _ => rfl⟩
    | cons id rest =>
      have hid := hfresh id List.mem_cons_self
      have hrest : ∀ j ∈ rest, (s.line j).IsFresh := fun j hj => hfresh j (List.mem_cons_of_mem id hj)
      have hshort : rest.length ≤ bound := Nat.le_of_succ_le_succ hlength
      unfold arrangeWithin
      simp only
      split
      · rename_i part hpart _
        have hdirective : s.directives id = some part.directive := by
          unfold directives Line.directive?
          rw [hpart]
          rfl
        split
        · rename_i closer hcloser
          split
          · rename_i hends
            have hignore := Annotates.foldl (fun s j => Annotates.modifyLine s j fun l => l.mark .ignored) rest
              (s.fail id part.keyword.span s!"{part.directive.name} without a matching {closer.name}")
            refine iff_of_false (fun hquiet => ?_) (Tidy.not_unmatched hdirective hcloser hends)
            exact not_quiet_fail s id _ _ (((Annotates.fail s id _ _).quiet_iff hignore).mp hquiet).1
          rename_i body stop after hends
          rw [Tidy.block_iff hdirective hcloser hends]
          obtain rfl := splitAtCloser_eq hends
          have hlist : id :: (body ++ stop :: after) = (id :: (body ++ [stop])) ++ after := by simp
          rw [hlist] at hnodup hfresh
          have hblock : IsBlock s id part closer body stop :=
            ⟨hpart, hcloser, ends_of_splitAtCloser hends, hnodup.of_append_left,
              fun j hj => hfresh j (List.mem_append_left _ hj)⟩
          rw [List.length_append, List.length_cons] at hshort
          obtain ⟨htouch, -⟩ := hblock.arrangeBlock_accounts (arrangeWithin_accounts bound) (by omega)
          rw [quiet_cons ih (by omega) hnodup (fun j hj => hfresh j (List.mem_append_right _ hj)) htouch
              (annotates_arrangeBlock (annotates_arrangeWithin bound) s id _ _ _),
            hblock.quiet_arrangeBlock (arrangeWithin_accounts bound) ih (annotates_arrangeWithin bound) (by omega)]
        · rename_i hcloser
          have hplain : ∀ d, s.directives id = some d → d.spec.closer = none := fun d hd => by
            obtain rfl := Option.some.inj (hd.symm.trans hdirective)
            exact hcloser
          rw [Tidy.line_iff hplain]
          by_cases hneeds : needsBlock part.directive = true
          · rw [if_pos hneeds, quiet_cons ih hshort hnodup hrest (Marks.fail s id _ _).touches (.fail s id _ _)]
            refine iff_of_false (fun hquiet => not_quiet_fail s id _ _ hquiet.1) fun htidy => ?_
            rw [htidy.1 _ hdirective] at hneeds
            cases hneeds
          · rw [if_neg hneeds, ih s rest hshort (List.nodup_cons.mp hnodup).2 hrest]
            refine (and_iff_right fun d hd => ?_).symm
            obtain rfl := Option.some.inj (hd.symm.trans hdirective)
            exact Bool.eq_false_iff.mpr hneeds
      · rename_i hother
        -- a line that has not been skipped has no directive here
        have hnone : ∀ d, s.directives id ≠ some d := fun d hd => by
          obtain ⟨part, hpart, -⟩ := Option.map_eq_some_iff.mp hd
          exact absurd (by simp [Line.isSkipped, hid.1]) (hother part hpart)
        rw [Tidy.line_iff fun d hd => absurd hd (hnone d)]
        exact (ih s rest hshort (List.nodup_cons.mp hnodup).2 hrest).trans
          (and_iff_right fun d hd => absurd hd (hnone d)).symm

/-- Arranging reports nothing about fresh lines exactly when their blocks are in order. -/
theorem quiet_arrange {ids : List LineId} (hnodup : ids.Nodup) (hfresh : ∀ id ∈ ids, (s.line id).IsFresh) :
    Quiet s (s.arrange ids).2 ↔ Tidy s ids :=
  judges_arrangeWithin ids.length s ids (Nat.le_refl _) hnodup hfresh

end Assembly

end CrossAssembler
