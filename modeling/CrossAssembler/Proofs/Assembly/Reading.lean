import CrossAssembler.Proofs.Assembly.Analysis

/-!
# Every data group is read

The cells of a data group are found when it is declared and read when its line is parsed. Between the two
the group may have been reached through included files and macro calls, so parsing has to come to every
line that declaring has come to.

Principal results: `tracks_declareWithin`, `tracks_resolveWithin`, `reads_parseWithin` — one for each
phase; `readied_analyze` — after the three of them all groups have been read.
-/

namespace CrossAssembler.Assembly

variable {s s' s'' : Assembly} {may : Permit} {P Q : LineId → Prop}
variable {l : Line} {id : LineId} {n calls files : Budget} {items : List Item} {item : Item}
variable {part : Line.CommandPart}

/-- Whether it does not matter what is missing: there is an error, or the work has been told to stop. -/
def Excused (s : Assembly) : Prop := s.Failed ∨ s.stopped = true

/-- Whether all blocks with rows have been read, as far as it matters. -/
def Readied (s : Assembly) : Prop := s.Excused ∨ ∀ id, (s.line id).Read

theorem Change.stopped (h : Change may s s') (hstopped : s.stopped = true) : s'.stopped = true := by
  cases h with
  | around _ _ _ _ _ _ _ _ _ _ h => exact h hstopped
  | assign label value =>
    obtain ⟨progress, heq⟩ := setLabelValue_eq s label value
    rw [heq]
    exact hstopped
  | report | mark | modify | name | define | document | register | addScope | push => exact hstopped

theorem Changes.excused (h : Changes may s s') (he : s.Excused) : s'.Excused := by
  induction h with
  | refl => exact he
  | tail _ hstep ih =>
    rcases ih with hfailed | hstopped
    · exact .inl (hstep.failed hfailed)
    · exact .inr (hstep.stopped hstopped)

/-! ## Lines that are not declared -/

theorem Changes.keeps (h : Changes may s s') (hs : s.Sound) (hid : ¬ may.declare id) :
    Keeps s' (s.line id) (s'.line id) := by
  induction h with
  | refl => exact .refl _
  | tail hrun hstep ih =>
    have hnext := hstep.keeps (Changes.sound hrun hs) hid
    refine ⟨fun hl => ?_, fun items hitems => hnext.inner items (ih.inner items hitems),
      fun table htable => ih.table table (hnext.table table htable)⟩
    rcases ih.read hl with hread | hfailed
    · exact hnext.read hread
    · exact .inr (hstep.failed hfailed)

/-! ## What parsing comes to -/

/-- The lines that are parsed when items are, through lines with a property and as deep as a budget
allows. -/
inductive Reach (s : Assembly) (P : LineId → Prop) : Budget → List Item → LineId → Prop
  | here {calls files : Budget} {items : List Item} {item : Item} : item ∈ items → P item.id →
      Reach s P (.left calls files) items item.id
  | inside {calls files : Budget} {items : List Item} {item : Item} {inner : Line.Part × List Item}
      {id : LineId} : item ∈ items → P item.id → inner ∈ (s.line item.id).inner →
      Reach s P ((Budget.left calls files).share inner.1) inner.2 id → Reach s P (.left calls files) items id

theorem Reach.subset {items' : List Item} (h : Reach s P n items id)
    (hsub : items ⊆ items') : Reach s P n items' id := by
  cases h with
  | here hitem hP => exact .here (hsub hitem) hP
  | inside hitem hP hinner hrest => exact .inside (hsub hitem) hP hinner hrest

theorem Reach.not_nil : ¬ Reach s P n [] id := by
  intro h
  cases h with
  | here hmem => cases hmem
  | inside hmem => cases hmem

theorem Reach.kept (h : Reach s P n items id)
    (hkept : ∀ j, P j → Q j ∧ ∀ inner ∈ (s.line j).inner, inner ∈ (s'.line j).inner) :
    Reach s' Q n items id := by
  induction h with
  | here hitem hP => exact .here hitem (hkept _ hP).1
  | inside hitem hP hinner _ ih =>
    exact .inside hitem (hkept _ hP).1 ((hkept _ hP).2 _ hinner) ih

/-- Whether every line that had been read still is, or is reached from items, as far as it matters. -/
def Tracks (P : LineId → Prop) (s s' : Assembly) (n : Budget) (items : List Item) : Prop :=
  ∀ id, (s.line id).Read → (s'.line id).Read ∨ Reach s' P n items id ∨ s'.Excused

theorem Tracks.of_changes (h : Changes may s s') (hs : s.Sound)
    (hnone : ∀ id, ¬ may.declare id) : Tracks P s s' n items :=
  fun id hid => ((h.keeps hs (hnone id)).read hid).imp_right fun hfailed => .inr (.inl hfailed)

theorem Tracks.after (h : Tracks P s' s'' n items)
    (hrun : Changes may s s') (hs : s.Sound) (hnone : ∀ id, ¬ may.declare id)
    (hexcused : s'.Excused → s''.Excused) : Tracks P s s'' n items := by
  intro id hid
  rcases (hrun.keeps hs (hnone id)).read hid with hread | hfailed
  · exact h id hread
  · exact .inr (.inr (hexcused (.inl hfailed)))

theorem Tracks.mono {items' : List Item} (h : Tracks P s s' n items)
    (hP : ∀ id, P id → Q id) (hsub : items ⊆ items') : Tracks Q s s' n items' := by
  intro id hid
  rcases h id hid with hread | hreach | hexcused
  · exact .inl hread
  · exact .inr (.inl ((hreach.kept fun j hj => ⟨hP j hj, fun _ h => h⟩).subset hsub))
  · exact .inr (.inr hexcused)

theorem Tracks.trans (h : Tracks P s s' n items) (h' : Tracks Q s' s'' n items) (hexcused : s'.Excused → s''.Excused)
    (hkept : ∀ j, P j → Q j ∧ ∀ inner ∈ (s'.line j).inner, inner ∈ (s''.line j).inner) :
    Tracks Q s s'' n items := by
  intro id hid
  rcases h id hid with hread | hreach | he
  · exact h' id hread
  · exact .inr (.inl (hreach.kept hkept))
  · exact .inr (.inr (hexcused he))

theorem Tracks.inside (part : Line.Part)
    (h : Tracks P s s' ((Budget.left calls files).share part) items) (hP : P item.id)
    (hinner : (part, items) ∈ (s'.line item.id).inner) : Tracks P s s' (.left calls files) [item] := by
  intro id hid
  rcases h id hid with hread | hreach | hexcused
  · exact .inl hread
  · exact .inr (.inl (.inside (List.mem_singleton_self item) hP hinner hreach))
  · exact .inr (.inr hexcused)

theorem Tracks.attach (part : Line.Part) (h : Tracks P s s' ((Budget.left calls files).share part) items)
    (hothers : ∀ j, j ≠ item.id → s''.line j = s'.line j) (hexcused : s'.Excused → s''.Excused)
    (hkept : ∀ j, P j → Q j ∧ ∀ inner ∈ (s'.line j).inner, inner ∈ (s''.line j).inner)
    (hQ : Q item.id) (hinner : (part, items) ∈ (s''.line item.id).inner) :
    Tracks Q s s'' (.left calls files) [item] := by
  intro id hid
  by_cases heq : id = item.id
  · rw [heq]
    exact .inr (.inl (.here (List.mem_singleton_self item) hQ))
  · rcases h id hid with hread | hreach | he
    · rw [hothers id heq]
      exact .inl hread
    · exact .inr (.inl (.inside (List.mem_singleton_self item) hQ hinner (hreach.kept hkept)))
    · exact .inr (.inr (hexcused he))

theorem Line.linesBelow_of_inner {part : Line.Part} (h : (part, items) ∈ l.inner) : items ∈ linesBelow l := by
  unfold Line.inner at h
  split at h
  · rename_i call hkind
    cases hexpansion : call.expansion with
    | none =>
      rw [hexpansion] at h
      cases h
    | some e =>
      rw [hexpansion] at h
      cases List.mem_singleton.mp h
      rw [linesBelow, hkind]
      simp only [hexpansion]
      exact List.mem_singleton_self _
  · rename_i hkind
    split at h
    · rename_i hstate
      cases List.mem_singleton.mp h
      rw [linesBelow_command hkind, hstate]
      exact List.mem_singleton_self _
    · cases h
  · cases h

/-! ## Declaring -/

/-- Lines that may be changed, of which some may be declared. -/
def within (own P : LineId → Prop) : Permit :=
  ⟨own, fun id => own id ∧ P id, own, fun _ => False, fun _ h => h.1, fun _ h => h⟩

/-- Whether items can be worked on: they and all new lines may be changed. -/
structure Ready (own : LineId → Prop) (s : Assembly) (items : List Item) : Prop where
  sound : s.Sound
  region : ∀ P, s.Region (within own P)
  fresh : ∀ id, s.lines.size ≤ id → own id
  proper : ∀ item ∈ items, item.Proper fun id => own id ∧ id < s.lines.size

namespace Ready

variable {own : LineId → Prop} {items items' : List Item}

theorem subset (h : Ready own s items) (hsub : items' ⊆ items) : Ready own s items' :=
  ⟨h.sound, h.region, h.fresh, fun item hitem => h.proper item (hsub hitem)⟩

theorem later (h : Ready own s items) (hrun : Changes (within own P) s s') : Ready own s' items := by
  have hle := hrun.size_le
  have hregion := hrun.region h.sound (h.region P)
  refine ⟨hrun.sound h.sound, fun _ => ⟨hregion.room, hregion.below⟩,
    fun id hid => h.fresh id (Nat.le_trans hle hid), fun item hitem => ?_⟩
  exact (h.proper item hitem).mono fun j hj => ⟨hj.1, Nat.lt_of_lt_of_le hj.2 hle⟩

theorem allows (h : Ready own s items) (hP : ∀ id, s.lines.size ≤ id → P id) :
    (within own P).Allows s.lines.size := fun id hid => ⟨⟨h.fresh id hid, hP id hid⟩, h.fresh id hid⟩

theorem of_new (hs : s.Sound) (hrun : Changes (.undeclared s.lines.size) s s')
    (hitems : NewItems s s' items) : Ready (fun id => s.lines.size ≤ id) s' items := by
  have hregion := hrun.region hs (region_undeclared s)
  exact ⟨hrun.sound hs, fun _ => ⟨hregion.room, hregion.below⟩,
    fun _ hid => Nat.le_trans hrun.size_le hid, hitems.proper⟩

theorem of_room (hs : s.Sound) (hroom : ∀ scope, s.Room scope)
    (hitems : ∀ item ∈ items, item.Proper (· < s.lines.size)) : Ready (fun _ => True) s items where
  sound := hs
  region _ := ⟨fun _ _ _ => hroom _, fun id _ inner hinner item hitem =>
    (hs.below id inner hinner item hitem).mono fun _ _ => trivial⟩
  fresh _ _ := trivial
  proper item hitem := (hitems item hitem).mono fun _ hid => ⟨trivial, hid⟩

theorem declareWithin (h : Ready own s items) (n : Budget) :
    Changes (within own fun j => j ∈ items.map Item.id ∨ s.lines.size ≤ j) s (declareWithin n s items) :=
  Runs.declareWithin n _ s items (h.allows fun _ => .inr)
    (fun item hitem => ⟨(h.proper item hitem).id.1, .inl (List.mem_map_of_mem hitem)⟩) h.proper
    h.sound (h.region _)

theorem resolveWithin (h : Ready own s items) (n : Budget) :
    Changes (within own fun j => s.lines.size ≤ j) s (resolveWithin n s items) :=
  Runs.resolveWithin n _ s items (h.allows fun _ hid => hid) h.proper h.sound (h.region _)

theorem inner (h : Ready own s items) {id : LineId} (hown : own id) {part : Line.Part}
    (hinner : (part, items') ∈ (s.line id).inner) : Ready own s items' := by
  have hbelow := Line.linesBelow_of_inner hinner
  exact ⟨h.sound, h.region, h.fresh, fun item hitem =>
    ((h.region fun _ => False).below id hown _ hbelow item hitem).and (h.sound.below id _ hbelow item hitem)⟩

end Ready

/-- The lines that are declared with items. -/
def Declared (s s' : Assembly) (items : List Item) (id : LineId) : Prop :=
  (id ∈ items.map Item.id ∨ s.lines.size ≤ id) ∧ id < s'.lines.size

theorem Declared.le {t : Assembly} (hitems : NewItems t s items)
    (hle : t.lines.size ≤ s.lines.size) (h : Declared s s' items id) :
    t.lines.size ≤ id := by
  rcases h.1 with hmem | hge
  · obtain ⟨item, hitem, rfl⟩ := List.mem_map.mp hmem
    exact (hitems.proper item hitem).id.1
  · exact Nat.le_trans hle hge

theorem line_setDirectiveState_ne {j : LineId} {state : DirectiveState} (h : j ≠ id) :
    (s.setDirectiveState id state).line j = s.line j := by
  unfold setDirectiveState
  rw [line_modifyLine, if_neg fun hj => h hj.1]

theorem inner_setIncluded {path : Path} (hid : id < s.lines.size) (hkind : (s.line id).kind = .command part)
    (hinclude : part.directive = .includeSource) :
    (.file, items) ∈ ((s.setDirectiveState id (.included path items)).line id).inner := by
  unfold setDirectiveState
  rw [line_modifyLine, if_pos ⟨rfl, hid⟩, kind_modifyCommand hkind, Line.inner]
  simp only [hinclude]
  exact List.mem_singleton_self _

/-- Declaring one line: either only that line is declared, or the lines of a file with it. -/
theorem tracks_declareLine {own : LineId → Prop} (calls : Budget) (h : Ready own s [item])
    (hn : ∀ {own : LineId → Prop} {s : Assembly} {items : List Item}, Ready own s items → (items.map Item.id).Nodup →
      Tracks (Declared s (declareWithin n s items) items) s (declareWithin n s items) n items) :
    Tracks (Declared s (declareLine (declareWithin n) s item.id) [item]) s
      (declareLine (declareWithin n) s item.id) (.left calls n) [item] := by
  have hitem := (h.proper item (List.mem_singleton_self item)).id
  have hmem : item.id ∈ [item].map Item.id := List.mem_singleton_self _
  rcases declareLine_cases (declareWithin n) hitem.2 with hown | hinclude
  · have hrun := hown (within own (· = item.id)) ⟨hitem.1, rfl⟩ h.sound (h.region _)
    intro id hid
    by_cases heq : id = item.id
    · have hlt := Nat.lt_of_lt_of_le hitem.2 hrun.size_le
      rw [heq]
      exact .inr (.inl (.here (List.mem_singleton_self item) ⟨.inl hmem, hlt⟩))
    · exact ((hrun.keeps h.sound fun hd => heq hd.2).read hid).imp_right fun hf => .inr (.inl hf)
  obtain ⟨part, t, path, text, hkind, hdirective, hrun, heq⟩ := hinclude
  have hbefore := hrun (within own fun _ => False) hitem.1 h.sound (h.region _)
  have hs := hbefore.sound h.sound
  have hle := hbefore.size_le
  have hlt := Nat.lt_of_lt_of_le hitem.2 hle
  obtain ⟨part', hkind', hdirective'⟩ := (hbefore.linesKept h.sound).exists_command hitem.2 hkind
  obtain ⟨u, items, hload, hitems, htext⟩ := includeText_eq (declareWithin n) item.id path text hs
  rw [heq, htext]
  have hready := Ready.of_new hs hload hitems
  have hdeclared := hready.declareWithin n
  have htracks := ((hn hready hitems.nodup).after hload hs (fun _ hd => hd) hdeclared.excused).after
    hbefore h.sound (fun _ hd => hd.2) fun he => hdeclared.excused (hload.excused he)
  generalize declareWithin n u items = v at hdeclared htracks ⊢
  have hle' := hload.size_le
  -- the directive is no new line
  have hold : ¬ t.lines.size ≤ item.id := Nat.not_le_of_lt hlt
  have hsame : (v.line item.id).kind = .command part' :=
    ((hdeclared.kind_eq (hload.sound hs) (Nat.lt_of_lt_of_le hlt hle') hold).trans
      (hload.kind_eq hs hlt hold)).trans hkind'
  have hlt' := Nat.lt_of_lt_of_le (Nat.lt_of_lt_of_le hlt hle') hdeclared.size_le
  have hsize : (v.closeFile.setDirectiveState item.id (.included path items)).lines.size = v.lines.size := size_modifyLine _ _ _
  refine htracks.attach .file (fun j hj => line_setDirectiveState_ne hj) (fun he => he) (fun j hj => ?_)
    ⟨.inl hmem, hsize ▸ hlt'⟩ (inner_setIncluded hlt' hsame (hdirective'.trans hdirective))
  have hge := hj.le hitems hle'
  refine ⟨⟨.inr (Nat.le_trans hle hge), hsize ▸ hj.2⟩, ?_⟩
  have hne : j ≠ item.id := fun heq => hold (heq ▸ hge)
  rw [line_setDirectiveState_ne hne]
  exact fun _ hinner => hinner

theorem tracks_declareWithin : ∀ (n : Budget) {own : LineId → Prop} {s : Assembly} {items : List Item},
    Ready own s items → (items.map Item.id).Nodup →
    Tracks (Declared s (declareWithin n s items) items) s (declareWithin n s items) n items
  | .spent, _, _, _, _, _ => fun _ hid => .inl hid
  | .left calls n, own, s, items, h, hnodup => by
    induction items generalizing s with
    | nil => exact fun _ hid => .inl hid
    | cons item rest ih =>
      obtain ⟨hnotin, hrest⟩ := List.nodup_cons.mp hnodup
      have hwhole := h.declareWithin (.left calls n)
      have heq : declareWithin (.left calls n) s (item :: rest) = declareWithin (.left calls n)
          (if s.stopped then s else declareLine (declareWithin n) s item.id) rest := rfl
      rw [heq] at hwhole ⊢
      split at hwhole
      · rename_i hstopped
        rw [if_pos hstopped]
        exact fun _ _ => .inr (.inr (hwhole.excused (.inr hstopped)))
      rename_i hstopped
      rw [if_neg hstopped]
      have hitem := (h.proper item List.mem_cons_self).id
      have hsub : [item] ⊆ item :: rest := List.cons_subset_cons item (List.nil_subset rest)
      have hfirst := tracks_declareLine calls (h.subset hsub) fun h => tracks_declareWithin n h
      have hstep : Changes (within own fun j => j = item.id ∨ s.lines.size ≤ j) s
          (declareLine (declareWithin n) s item.id) :=
        Runs.declareLine ⟨hitem.1, .inl rfl⟩ hitem.2 (h.allows fun _ => .inr) (.declareWithin n) h.sound (h.region _)
      have hready := (h.subset (List.subset_cons_self item rest)).later hstep
      have hlater := hready.declareWithin (.left calls n)
      have hsecond := ih _ hready hrest
      have hle := hstep.size_le
      have hle' := hlater.size_le
      refine (hfirst.mono (fun _ h => h) hsub).trans (hsecond.mono (fun j hj => ?_)
        (List.subset_cons_self item rest)) hlater.excused fun j hj =>
          ⟨⟨hj.1.imp_left fun h => ?_, Nat.lt_of_lt_of_le hj.2 hle'⟩, (hlater.keeps hready.sound fun hd => ?_).inner⟩
      · exact ⟨hj.1.imp (List.mem_cons_of_mem _) (Nat.le_trans hle), hj.2⟩
      · rw [List.mem_singleton.mp h]
        exact List.mem_cons_self
      -- a line that has been declared is not declared again
      rcases hd.2 with hmem | hge
      · rcases hj.1 with h' | hnew
        · exact hnotin (List.mem_singleton.mp h' ▸ hmem)
        · obtain ⟨other, hother, rfl⟩ := List.mem_map.mp hmem
          exact Nat.not_le_of_lt (h.proper other (List.mem_cons_of_mem item hother)).id.2 hnew
      · exact Nat.not_le_of_lt hj.2 hge

/-! ## Settling -/

theorem Line.inner_included {path : Path} (hkind : l.kind = .command part) (hstate : part.state = .included path items)
    (h : l.Consistent) : (.file, items) ∈ l.inner := by
  have hsuits := h part hkind
  rw [hstate] at hsuits
  unfold Line.inner
  rw [hkind]
  simp only [hstate]
  rw [hsuits]
  exact List.mem_singleton_self _

theorem tracks_settle {own : LineId → Prop} (h : Ready own s items) (hnodup : (items.map Item.id).Nodup)
    (hn : ∀ {own : LineId → Prop} {s : Assembly} {items : List Item}, Ready own s items →
      Tracks (· < (resolveWithin n s items).lines.size) s (resolveWithin n s items) n items) :
    Tracks (· < (settleWithin n s items).lines.size) s (settleWithin n s items) n items := by
  have hready := h.later (h.declareWithin n)
  have hlater := hready.resolveWithin n
  refine (tracks_declareWithin n h hnodup).trans (hn hready) hlater.excused fun j hj => ?_
  exact ⟨Nat.lt_of_lt_of_le hj.2 hlater.size_le,
    (hlater.keeps hready.sound fun hd => Nat.not_le_of_lt hj.2 hd.2).inner⟩

/-- Settling one line: the lines made for a call, and those of a file, belong to it. -/
theorem tracks_resolveLine {own : LineId → Prop} (h : Ready own s [item])
    (hcalls : ∀ {own : LineId → Prop} {s : Assembly} {items : List Item}, Ready own s items →
      Tracks (· < (resolveWithin calls s items).lines.size) s (resolveWithin calls s items) calls items)
    (hfiles : ∀ {own : LineId → Prop} {s : Assembly} {items : List Item}, Ready own s items →
      Tracks (· < (resolveWithin files s items).lines.size) s (resolveWithin files s items) files items) :
    Tracks (· < (resolveLine (settleWithin calls) (resolveWithin files) s item.id).lines.size) s
      (resolveLine (settleWithin calls) (resolveWithin files) s item.id) (.left calls files) [item] := by
  have hitem := (h.proper item (List.mem_singleton_self item)).id
  unfold resolveLine
  simp only
  split
  · exact fun _ hid => .inl hid
  split
  · rename_i hunknown
    rcases resolveUnknown_cases (settleWithin calls) hitem.2 hunknown with hown | hcall
    · exact .of_changes (hown (within own fun _ => False) hitem.1 h.sound (h.region _)) h.sound fun _ hd => hd.2
    obtain ⟨t, part, name, count, hrun, hkind, hnone, heq⟩ := hcall
    rw [heq]
    have hbefore := hrun (within own fun _ => False) hitem.1 h.sound (h.region _)
    have hs := hbefore.sound h.sound
    have hlt := Nat.lt_of_lt_of_le hitem.2 hbefore.size_le
    rcases expand_cases (settleWithin calls) name count
      hs hlt with hsimple | ⟨u, items, parameters, hcopy, hitems, -, hexpand⟩
    · exact (Tracks.of_changes hsimple hs fun _ hd => hd).after hbefore h.sound (fun _ hd => hd.2) hsimple.excused
    rw [hexpand]
    have hready := Ready.of_new hs hcopy hitems
    have hsettled := (Runs.settleWithin calls).changes hs hcopy hitems
    have htracks := ((tracks_settle hready hitems.nodup hcalls).after hcopy hs (fun _ hd => hd)
      hsettled.excused).after hbefore h.sound (fun _ hd => hd.2) fun he => hsettled.excused (hcopy.excused he)
    generalize settleWithin calls u items = w at hsettled htracks ⊢
    have hle := hcopy.size_le
    -- the call is no new line
    have hold : ¬ t.lines.size ≤ item.id := Nat.not_le_of_lt hlt
    have hsame : (w.line item.id).kind = .call part :=
      ((hsettled.kind_eq (hcopy.sound hs) (Nat.lt_of_lt_of_le hlt hle) hold).trans
        (hcopy.kind_eq hs hlt hold)).trans hkind
    have hlt' := Nat.lt_of_lt_of_le (Nat.lt_of_lt_of_le hlt hle) hsettled.size_le
    refine htracks.attach .call (fun j hj => ?_) (fun he => he) (fun j hj => ⟨?_, ?_⟩) ?_ ?_
    · rw [line_modifyLine, if_neg fun h => hj h.1]
      rfl
    · rw [size_modifyLine]
      exact hj
    · rw [line_modifyLine]
      split
      · rename_i heq
        rw [heq.1, Line.inner, hsame]
        simp only [hnone]
        exact fun _ h => absurd h List.not_mem_nil
      · exact fun _ hinner => hinner
    · rw [size_modifyLine]
      exact hlt'
    · rw [line_modifyLine, if_pos ⟨rfl, hlt'⟩]
      split
      · exact List.mem_singleton_self _
      · rename_i hother
        exact absurd hsame (hother part)
  · rename_i part hkind
    split
    · rename_i path items hstate
      have hinner := Line.inner_included hkind hstate (h.sound.consistent item.id)
      have hready := h.inner hitem.1 hinner
      have hlater := hready.resolveWithin files
      refine Tracks.inside .file (hfiles hready) (Nat.lt_of_lt_of_le hitem.2 hlater.size_le) ?_
      exact (hlater.keeps h.sound fun hd => Nat.not_le_of_lt hitem.2 hd.2).inner _ hinner
    · exact fun _ hid => .inl hid
  · exact fun _ hid => .inl hid

theorem tracks_resolveWithin : ∀ (n : Budget) {own : LineId → Prop} {s : Assembly} {items : List Item},
    Ready own s items →
    Tracks (· < (resolveWithin n s items).lines.size) s (resolveWithin n s items) n items
  | .spent, _, _, _, _ => fun _ hid => .inl hid
  | .left calls files, own, s, items, h => by
    induction items generalizing s with
    | nil => exact fun _ hid => .inl hid
    | cons item rest ih =>
      have hwhole := h.resolveWithin (.left calls files)
      have heq : resolveWithin (.left calls files) s (item :: rest) = resolveWithin (.left calls files)
          (if s.stopped then s else resolveLine (settleWithin calls) (resolveWithin files) s item.id) rest := rfl
      rw [heq] at hwhole ⊢
      split at hwhole
      · rename_i hstopped
        rw [if_pos hstopped]
        exact fun _ _ => .inr (.inr (hwhole.excused (.inr hstopped)))
      rename_i hstopped
      rw [if_neg hstopped]
      have hitem := (h.proper item List.mem_cons_self).id
      have hsub : [item] ⊆ item :: rest := List.cons_subset_cons item (List.nil_subset rest)
      have hfirst := tracks_resolveLine (h.subset hsub) (fun h => tracks_resolveWithin calls h)
        fun h => tracks_resolveWithin files h
      have hstep : Changes (within own fun j => s.lines.size ≤ j) s
          (resolveLine (settleWithin calls) (resolveWithin files) s item.id) :=
        Runs.resolveLine hitem.1 hitem.2 (h.allows fun _ hid => hid) (.settleWithin calls)
          (.resolveWithin files) h.sound (h.region _)
      have hready := (h.subset (List.subset_cons_self item rest)).later hstep
      have hlater := hready.resolveWithin (.left calls files)
      refine (hfirst.mono (fun _ h => h) hsub).trans
        ((ih _ hready).mono (fun _ hj => hj) (List.subset_cons_self item rest)) hlater.excused fun j hj => ?_
      exact ⟨Nat.lt_of_lt_of_le hj hlater.size_le,
        (hlater.keeps hready.sound fun hd => Nat.not_le_of_lt hj hd.2).inner⟩

/-! ## Parsing -/

/-- The directives whose blocks have rows. -/
def rowDirectives : List Directive := [.byteGroup, .wordGroup, .longGroup, .enumeration]

theorem Line.read_of_directive (h : ∀ part, l.kind = .command part → part.directive ∉ rowDirectives) : l.Read := by
  refine fun part hkind => ⟨fun hgroup => ?_, fun henum => ?_⟩
  · exact absurd (List.mem_append_left [Directive.enumeration] hgroup) (h part hkind)
  · exact absurd (henum ▸ by decide) (h part hkind)

theorem read_setDirectiveState {state : DirectiveState}
    (h : ∀ part, (s.line id).kind = .command part → Line.CommandPart.IsRead { part with state } ∨ s.Failed) :
    ((s.setDirectiveState id state).line id).Read ∨ (s.setDirectiveState id state).Failed := by
  by_cases hfailed : s.Failed
  · exact .inr hfailed
  refine .inl fun part hkind => ?_
  unfold setDirectiveState at hkind
  rw [line_modifyLine] at hkind
  split at hkind
  · unfold Line.modifyCommand at hkind
    split at hkind
    · rename_i part' hpart'
      cases hkind
      exact (h part' hpart').resolve_right hfailed
    · rename_i hother
      exact absurd hkind (hother part)
  · rename_i hout
    rw [line_of_size_le (Nat.le_of_not_lt fun hlt => hout ⟨rfl, hlt⟩)] at hkind
    cases hkind

theorem directiveState_of_kind (h : (s.line id).kind = .command part) : s.directiveState id = part.state := by
  unfold directiveState Line.command?
  rw [h]

theorem read_parseGroup (hother : ((s.parseGroup id).line id).directive? ≠ some .enumeration) :
    ((s.parseGroup id).line id).Read ∨ (s.parseGroup id).Failed := by
  unfold parseGroup at hother ⊢
  split
  · rename_i cells _
    obtain ⟨-, -, hread⟩ := parseCells_spec cells s
    refine read_setDirectiveState fun _ _ => hread.imp_left fun hcells => ⟨fun _ _ heq => ?_, nofun⟩
    cases heq
    exact hcells
  · rename_i hstate
    simp only at hother
    refine .inl fun part hkind => ⟨fun _ cells hcells => ?_, fun henum => ?_⟩
    · exact absurd ((directiveState_of_kind hkind).trans hcells) (hstate cells)
    · exact absurd (henum ▸ directive_of_kind hkind) hother

theorem read_parseEnumeration (henum : ((s.parseEnumeration id).line id).directive? = some .enumeration) :
    ((s.parseEnumeration id).line id).Read ∨ (s.parseEnumeration id).Failed := by
  unfold parseEnumeration at henum ⊢
  simp only at henum ⊢
  split
  · rename_i rows _
    refine read_setDirectiveState fun part hkind => read_parseEnumRows ?_
    rw [← (parseEnumRows_spec rows _).1 id]
    exact hkind
  · rename_i hstate
    simp only at henum
    refine .inl fun part hkind => ⟨fun hgroup => ?_, fun _ rows hrows => ?_⟩
    · rw [directive_of_kind hkind] at henum
      rw [Option.some.inj henum] at hgroup
      exact absurd hgroup (by decide)
    · exact absurd ((directiveState_of_kind hkind).trans hrows) (hstate rows)

theorem parseItem_command {calls files : Assembly → List Item → Assembly}
    (hskipped : (s.line item.id).isSkipped = false)
    (hkind : (s.line item.id).kind = .command part) :
    parseItem calls files s item = (parseCommand files s item part).mark item.id .finished := by
  unfold parseItem
  simp only [hskipped, hkind, Bool.false_eq_true, if_false]

theorem parseItem_call {calls files : Assembly → List Item → Assembly} {part : Line.CallPart}
    (hskipped : (s.line item.id).isSkipped = false) (hkind : (s.line item.id).kind = .call part) :
    parseItem calls files s item = (parseCall calls s item.id part).mark item.id .finished := by
  unfold parseItem
  simp only [hskipped, hkind, Bool.false_eq_true, if_false]

theorem read_mark {j : LineId} {state : LineState} (h : (s.line id).Read ∨ s.Excused) :
    ((s.mark j state).line id).Read ∨ (s.mark j state).Excused := by
  refine h.imp_left fun hread part hkind => ?_
  rw [sameKinds_mark s j state id] at hkind
  exact hread part hkind

theorem reads_own {calls files : Assembly → List Item → Assembly}
    (hskipped : (s.line item.id).isSkipped = false) (hid : item.id < s.lines.size)
    (hkept : LinesKept s (parseItem calls files s item)) :
    ((parseItem calls files s item).line item.id).Read ∨ (parseItem calls files s item).Excused := by
  have hdirective := hkept.directive item.id hid
  by_cases hrows : ∃ part, (s.line item.id).kind = .command part ∧ part.directive ∈ rowDirectives
  · obtain ⟨part, hkind, hrows⟩ := hrows
    rw [parseItem_command hskipped hkind] at hdirective ⊢
    rw [mark, line_modifyLine, directive_of_kind hkind] at hdirective
    refine read_mark (Or.imp_right .inl ?_)
    have hsame : ((parseCommand files s item part).line item.id).directive? = some part.directive := by
      split at hdirective
      · rwa [Line.directive?, Line.command?, Line.kind_mark] at hdirective
      · exact hdirective
    by_cases henum : part.directive = .enumeration
    · have hparse : parseCommand files s item part = s.parseEnumeration item.id := by
        unfold parseCommand
        rw [henum]
      rw [hparse, henum] at hsame
      rw [hparse]
      exact read_parseEnumeration hsame
    · have hparse : parseCommand files s item part = s.parseGroup item.id := by
        unfold parseCommand
        simp only [rowDirectives, List.mem_cons, List.not_mem_nil, or_false, henum] at hrows
        rcases hrows with h | h | h
        · rw [h]
        · rw [h]
        · rw [h]
      rw [hparse] at hsame ⊢
      exact read_parseGroup fun h => henum (Option.some.inj (hsame.symm.trans h))
  · refine .inl (Line.read_of_directive fun part hkind hmem => hrows ?_)
    rw [directive_of_kind hkind] at hdirective
    obtain ⟨part', hpart', heq⟩ := Option.map_eq_some_iff.mp hdirective.symm
    exact ⟨part', kind_of_command hpart', heq ▸ hmem⟩

/-- Parsing one line reads its rows, and parses the lines that belong to it. -/
theorem reads_parseItem {own : LineId → Prop} (h : Ready own s [item])
    (hn : ∀ (part : Line.Part) {own : LineId → Prop} {s : Assembly} {items : List Item} {id : LineId},
      Ready own s items → Reach s (· < s.lines.size) ((Budget.left calls files).share part) items id →
      ((parseWithin ((Budget.left calls files).share part) s items).line id).Read ∨
        (parseWithin ((Budget.left calls files).share part) s items).Excused)
    (hid : Reach s (· < s.lines.size) (.left calls files) [item] id) :
    ((parseItem (parseWithin calls) (parseWithin files) s item).line id).Read ∨
      (parseItem (parseWithin calls) (parseWithin files) s item).Excused := by
  have hitem := h.proper item (List.mem_singleton_self item)
  have hrun : Changes (within own fun _ => False) s (parseItem (parseWithin calls) (parseWithin files) s item) :=
    Runs.parseItem hitem (.parseWithin calls) (.parseWithin files) h.sound (h.region _)
  cases hskipped : (s.line item.id).isSkipped with
  | true => exact .inr (hrun.excused (.inl (h.sound.skipped item.id hitem.id.2 hskipped)))
  | false =>
    cases hid with
    | here hmem _ =>
      cases List.mem_singleton.mp hmem
      exact reads_own hskipped hitem.id.2 (hrun.linesKept h.sound)
    | @inside _ _ _ _ inner _ hmem _ hinner hrest =>
      cases List.mem_singleton.mp hmem
      have hready := h.inner hitem.id.1 hinner
      unfold Line.inner at hinner
      split at hinner
      · rename_i part hkind
        obtain ⟨t, hbefore, heq⟩ := parseCall_eq (parseWithin calls) s item.id part
        have hbefore := hbefore (within own fun _ => False) hitem.id.1 h.sound (h.region _)
        cases hexpansion : part.expansion with
        | none =>
          rw [hexpansion] at hinner
          cases hinner
        | some expansion =>
          rw [hexpansion] at hinner
          cases List.mem_singleton.mp hinner
          rw [parseItem_call hskipped hkind, heq, hexpansion]
          refine read_mark (hn .call (hready.later hbefore) (hrest.kept fun j hj => ?_))
          exact ⟨Nat.lt_of_lt_of_le hj hbefore.size_le, (hbefore.keeps h.sound fun hd => hd.2).inner⟩
      · rename_i part hkind
        split at hinner
        · rename_i path items hdirective hstate
          cases List.mem_singleton.mp hinner
          have hparse : parseCommand (parseWithin files) s item part = parseWithin files s items := by
            unfold parseCommand
            simp only [hdirective, hstate]
          rw [parseItem_command hskipped hkind, hparse]
          exact read_mark (hn .file hready hrest)
        · cases hinner
      · cases hinner

theorem Reach.of_cons {rest : List Item}
    (h : Reach s P n (item :: rest) id) : Reach s P n [item] id ∨ Reach s P n rest id := by
  cases h with
  | here hmem hP =>
    rcases List.mem_cons.mp hmem with rfl | hmem
    · exact .inl (.here (List.mem_singleton_self _) hP)
    · exact .inr (.here hmem hP)
  | inside hmem hP hinner hrest =>
    rcases List.mem_cons.mp hmem with rfl | hmem
    · exact .inl (.inside (List.mem_singleton_self _) hP hinner hrest)
    · exact .inr (.inside hmem hP hinner hrest)

theorem Ready.parseWithin {own : LineId → Prop} (h : Ready own s items) (n : Budget) :
    Changes (within own fun _ => False) s (parseWithin n s items) :=
  Runs.parseWithin n _ s items h.proper h.sound (h.region _)

/-- Parsing items reads every line that is reached from them. -/
theorem reads_parseWithin : ∀ (n : Budget) {own : LineId → Prop} {s : Assembly} {items : List Item}
    {id : LineId}, Ready own s items → Reach s (· < s.lines.size) n items id →
    ((parseWithin n s items).line id).Read ∨ (parseWithin n s items).Excused
  | .spent, _, _, _, _, _, hid => by cases hid
  | .left calls files, own, s, items, id, h, hid => by
    induction items generalizing s with
    | nil => exact absurd hid Reach.not_nil
    | cons item rest ih =>
      have hwhole := h.parseWithin (.left calls files)
      have heq : parseWithin (.left calls files) s (item :: rest) = parseWithin (.left calls files)
          (if s.stopped then s else parseItem (parseWithin calls) (parseWithin files) s item) rest := rfl
      rw [heq] at hwhole ⊢
      split at hwhole
      · rename_i hstopped
        rw [if_pos hstopped]
        exact .inr (hwhole.excused (.inr hstopped))
      rename_i hstopped
      rw [if_neg hstopped]
      have hsub : [item] ⊆ item :: rest := List.cons_subset_cons item (List.nil_subset rest)
      have hstep : Changes (within own fun _ => False) s (parseItem (parseWithin calls) (parseWithin files) s item) :=
        Runs.parseItem (h.proper item List.mem_cons_self) (.parseWithin calls) (.parseWithin files)
          h.sound (h.region _)
      have hready := (h.subset (List.subset_cons_self item rest)).later hstep
      have hlater := hready.parseWithin (.left calls files)
      rcases hid.of_cons with hid | hid
      · have hinner : ∀ (part : Line.Part) {own : LineId → Prop} {s : Assembly} {items : List Item}
            {id : LineId}, Ready own s items →
            Reach s (· < s.lines.size) ((Budget.left calls files).share part) items id →
            ((parseWithin ((Budget.left calls files).share part) s items).line id).Read ∨
              (parseWithin ((Budget.left calls files).share part) s items).Excused
          | .call, _, _, _, _, h => reads_parseWithin calls h
          | .file, _, _, _, _, h => reads_parseWithin files h
        rcases reads_parseItem (h.subset hsub) hinner hid with hread | he
        · exact ((hlater.keeps hready.sound fun hd => hd.2).read hread).imp_right .inl
        · exact .inr (hlater.excused he)
      · refine ih _ hready (hid.kept fun j hj => ?_)
        exact ⟨Nat.lt_of_lt_of_le hj hstep.size_le, (hstep.keeps h.sound fun hd => hd.2).inner⟩

theorem readied_parse {own : LineId → Prop} (h : Ready own s items)
    (hreach : ∀ id, (s.line id).Read ∨ Reach s (· < s.lines.size) .full items id ∨ s.Excused) :
    (s.parse items).Readied := by
  have hparsed : Changes (within own fun _ => False) s (s.parse items) := h.parseWithin .full
  by_cases he : (s.parse items).Excused
  · exact .inl he
  · refine .inr fun id => ?_
    rcases hreach id with hread | hid | he'
    · exact ((hparsed.keeps h.sound fun hd => hd.2).read hread).resolve_right fun hf => he (.inl hf)
    · exact (reads_parseWithin .full h hid).resolve_right he
    · exact absurd (hparsed.excused he') he

/-- Where all groups were read before, they are after items have been declared, settled and parsed. -/
theorem readied_analyze {own : LineId → Prop} (h : Ready own s items)
    (hnodup : (items.map Item.id).Nodup) (hread : s.Readied) : (s.analyze items).Readied := by
  have hdeclared := h.declareWithin .full
  have hready := h.later hdeclared
  have hresolved := hready.resolveWithin .full
  refine readied_parse (hready.later hresolved) fun id => ?_
  rcases hread with he | hread
  · exact .inr (.inr (hresolved.excused (hdeclared.excused he)))
  · exact tracks_settle h hnodup (tracks_resolveWithin .full) id (hread id)

end CrossAssembler.Assembly
