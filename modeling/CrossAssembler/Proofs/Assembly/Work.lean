import CrossAssembler.Proofs.Assembly.Output
import CrossAssembler.Proofs.Assembly.Reading

/-!
# Work on an assembly

* `Steps.linesKept`, `Steps.units`, `Steps.readied` — what steps keep.

Principal results: `Works` — from a sound assembly whose groups have been read, steps lead to another one
of this kind; `Works.trans` — pieces of work one after another are work.
-/

namespace CrossAssembler.Assembly

variable {s s' s'' : Assembly} {may : Permit}

/-! ## What steps keep -/

theorem Steps.all (h : Steps may s s') : Steps .all s s' := by
  refine h.mono ?_ ?_ ?_ ?_
  · exact fun _ _ => trivial
  · exact fun _ _ => trivial
  · exact fun _ _ => trivial
  · exact fun _ _ => trivial

/-- Steps other than changes do not alter what lines are. -/
theorem Step.change_or_writes (h : Step may s s') : Change may s s' ∨ Writes s s' := by
  cases h with
  | change h => exact .inl h
  | hide | unhide | move | count => exact .inr (.of_lines rfl rfl rfl rfl)
  | begin id => exact .inr (writes_modifyLine s id fun _ => ⟨rfl, rfl, fun h => h⟩)
  | enter id => exact .inr (writes_enterLine s id)
  | number _ _ label => exact .inr (writes_setLabelValue s label _)
  | evaluate id e token => exact .inr (writes_evaluate s id e token)
  | emit id _ cells => exact .inr (writes_emit s id cells)

theorem Writes.linesKept (h : Writes s s') : LinesKept s s' :=
  ⟨fun id _ => .of_kind (h.kinds id) (h.place id) (h.error id)⟩

theorem Steps.linesKept (h : Steps may s s') (hs : s.Sound) : LinesKept s s' := by
  induction h with
  | refl => exact .of_lines rfl
  | tail hrun hstep ih =>
    refine ih.trans ?_ (Steps.size_le hrun)
    rcases hstep.change_or_writes with h | h
    · exact h.linesKept (Steps.sound hrun hs)
    · exact h.linesKept

theorem Steps.plain (h : Steps may s s') (hs : s.Sound) (hplain : s'.Plain) : s.Plain := by
  rw [plain_iff] at hplain ⊢
  intro id
  rcases Nat.lt_or_ge id s.lines.size with hlt | hge
  · rw [← (h.linesKept hs).plain id hlt]
    exact hplain id
  · rw [line_of_size_le hge]
    rfl

theorem Steps.kind_eq (h : Steps may s s') (hs : s.Sound) {id : LineId} (hid : id < s.lines.size)
    (hown : ¬ may.change id) : (s'.line id).kind = (s.line id).kind := by
  induction h with
  | refl => rfl
  | tail hrun hstep ih =>
    rcases hstep.change_or_writes with h | h
    · exact (h.kind_eq (Steps.sound hrun hs) (Nat.lt_of_lt_of_le hid (Steps.size_le hrun)) hown).trans ih
    · exact (h.kinds id).trans ih

theorem Steps.units (h : Steps may s s') : s'.units.map (fun u => u.items) = s.units.map fun u => u.items := by
  induction h with
  | refl => rfl
  | tail _ hstep ih =>
    rcases hstep.change_or_writes with h | h
    · exact h.units.trans ih
    · rw [h.units]
      exact ih

theorem Steps.excused (h : Steps may s s') (he : s.Excused) : s'.Excused := by
  induction h with
  | refl => exact he
  | tail _ hstep ih =>
    rcases ih with hfailed | hstopped
    · exact .inl (hstep.failed hfailed)
    · rcases hstep.change_or_writes with h | h
      · exact .inr (h.stopped hstopped)
      · exact .inr (h.stopped ▸ hstopped)

theorem Step.readied (h : Step may s s') (hdeclare : ∀ id, ¬ may.declare id) (hs : s.Sound)
    (hr : s.Readied) : s'.Readied := by
  rcases hr with he | hread
  · exact .inl (Steps.excused (.single h) he)
  rcases h.change_or_writes with h | h
  · by_cases hfailed : s'.Failed
    · exact .inl (.inl hfailed)
    · exact .inr fun id => ((h.keeps hs (hdeclare id)).read (hread id)).resolve_right hfailed
  · refine .inr fun id part hkind => hread id part ?_
    rw [← h.kinds id]
    exact hkind

theorem Steps.readied (h : Steps may s s') (hdeclare : ∀ id, ¬ may.declare id) (hs : s.Sound)
    (hr : s.Readied) : s'.Readied := by
  induction h with
  | refl => exact hr
  | tail hrun hstep ih => exact hstep.readied hdeclare (Steps.sound hrun hs) ih

/-- Whether lists of items have all their lines in an assembly. -/
def Made (s : Assembly) (lists : List (List Item)) : Prop :=
  ∀ items ∈ lists, ∀ item ∈ items, item.Proper (· < s.lines.size)

theorem Made.mono {lists : List (List Item)} (h : Made s lists) (hle : s.lines.size ≤ s'.lines.size) :
    Made s' lists := fun items hitems item hitem =>
  (h items hitems item hitem).mono fun _ hid => Nat.lt_of_lt_of_le hid hle

/-! ## Work -/

/-- Whether steps that are allowed lead from one assembly to another, if the first is sound and its groups
have been read. The groups have been read in the second as well. -/
def Works (may : Permit) (s s' : Assembly) : Prop := s.Sound → s.Readied → Steps may s s' ∧ s'.Readied

namespace Works

theorem refl (s : Assembly) : Works may s s := fun _ hr => ⟨.refl, hr⟩

theorem of (h : s.Sound → s.Readied → Works may s s') : Works may s s' := fun hs hr => h hs hr hs hr

theorem seq (h : Works may s s') (h' : s.Sound → Steps may s s' → Works may s' s'') : Works may s s'' := by
  intro hs hr
  obtain ⟨hsteps, hr'⟩ := h hs hr
  obtain ⟨hsteps', hr''⟩ := h' hs hsteps (hsteps.sound hs) hr'
  exact ⟨hsteps.trans hsteps', hr''⟩

theorem trans (h : Works may s s') (h' : Works may s' s'') : Works may s s'' := h.seq fun _ _ => h'

theorem undeclared (h : Steps may s s') (hdeclare : ∀ id, ¬ may.declare id) : Works may s s' :=
  fun hs hr => ⟨h, h.readied hdeclare hs hr⟩

theorem mono {may' : Permit} (h : Works may s s') (hchange : ∀ id, may.change id → may'.change id)
    (hdeclare : ∀ id, may.declare id → may'.declare id) (hattach : ∀ id, may.attach id → may'.attach id)
    (hwrite : ∀ id, may.write id → may'.write id) : Works may' s s' := fun hs hr =>
  ⟨(h hs hr).1.mono hchange hdeclare hattach hwrite, (h hs hr).2⟩

theorem still (h : Steps .still s s') : Works may s s' :=
  fun hs hr => ⟨h.of_still, h.readied (fun _ => id) hs hr⟩

theorem aside (h : Change .still s s') : Works may s s' := still (.single (.change h))

end Works

end CrossAssembler.Assembly
