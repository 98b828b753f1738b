import CrossAssembler.Proofs.Assembly.Soundness

/-!
# Runs of the analysis

Principal results: `Changes.region` — changes keep the region; `Runs.trans`, `Runs.foldl` — runs one
after another are a run.
-/

namespace CrossAssembler.Assembly

variable {s s' s'' : Assembly} {may : Permit}
variable {id : LineId} {may' : Permit}

/-- The lines that a run may change. -/
structure Region (may : Permit) (s : Assembly) : Prop where
  room : ∀ id, may.change id → id < s.lines.size → s.Room (s.line id).scope
  below : ∀ id, may.change id → ∀ items ∈ linesBelow (s.line id), ∀ item ∈ items, item.Proper may.change

theorem Room.mono {scope : ScopeId} (h : s.Room scope) (hplain : s'.Plain → s.Plain)
    (hjournal : s'.journal = s.journal) : s'.Room scope := by
  intro hp e he
  rw [hjournal] at he
  exact h (hplain hp) e he

/-- A step that keeps lines where they are, and adds lines only where labels may be made. -/
theorem Region.step (hr : s.Region may) (hplain : s'.Plain → s.Plain) (hjournal : s'.journal = s.journal)
    (hscope : ∀ id < s.lines.size, (s'.line id).scope = (s.line id).scope)
    (hbelow : ∀ id < s.lines.size, ∀ items ∈ linesBelow (s'.line id),
      items ∈ linesBelow (s.line id) ∨ ∀ item ∈ items, item.Proper may.change)
    (hnew : ∀ id, s.lines.size ≤ id → id < s'.lines.size →
      s.Room (s'.line id).scope ∧ linesBelow (s'.line id) = []) : s'.Region may := by
  refine ⟨fun id hown hid => ?_, fun id hown items hitems item hitem => ?_⟩
  · refine Room.mono ?_ hplain hjournal
    rcases Nat.lt_or_ge id s.lines.size with hlt | hge
    · rw [hscope id hlt]
      exact hr.room id hown hlt
    · exact (hnew id hge hid).1
  · rcases Nat.lt_or_ge id s.lines.size with hlt | hge
    · rcases hbelow id hlt items hitems with h | h
      · exact hr.below id hown items h item hitem
      · exact h item hitem
    · rcases Nat.lt_or_ge id s'.lines.size with hlt' | hge'
      · rw [(hnew id hge hlt').2] at hitems
        cases hitems
      · rw [line_of_size_le hge'] at hitems
        cases hitems

theorem Region.modifyLine (hr : s.Region may) (id : LineId) {f : Line → Line}
    (hscope : (f (s.line id)).scope = (s.line id).scope)
    (hplain : (f (s.line id)).isPlain = (s.line id).isPlain)
    (hbelow : ∀ items ∈ linesBelow (f (s.line id)),
      items ∈ linesBelow (s.line id) ∨ ∀ item ∈ items, item.Proper may.change) :
    (s.modifyLine id f).Region may := by
  have hline : ∀ j, (s.modifyLine id f).line j = s.line j ∨ j = id ∧ (s.modifyLine id f).line j = f (s.line id) := by
    intro j
    rw [line_modifyLine]
    split
    · rename_i hj
      exact .inr ⟨hj.1, by rw [hj.1]⟩
    · exact .inl rfl
  refine hr.step (fun hp => ?_) rfl (fun j _ => ?_) (fun j _ items hitems => ?_) fun j hge hlt => ?_
  · rw [plain_iff] at hp ⊢
    intro j
    rcases hline j with h | ⟨rfl, h⟩
    · exact h ▸ hp j
    · rw [← hplain, ← h]
      exact hp j
  · rcases hline j with h | ⟨rfl, h⟩
    · rw [h]
    · rw [h, hscope]
  · rcases hline j with h | ⟨rfl, h⟩
    · exact .inl (h ▸ hitems)
    · exact hbelow items (h ▸ hitems)
  · rw [size_modifyLine] at hlt
    exact absurd hlt (Nat.not_lt_of_le hge)

theorem Region.sameLines (hr : s.Region may) (hlines : s'.lines = s.lines)
    (hjournal : s'.journal = s.journal) : s'.Region may := by
  have hline : ∀ id, s'.line id = s.line id := by
    intro id
    unfold line
    rw [hlines]
  refine hr.step (fun hp => ?_) hjournal (fun id _ => by rw [hline]) (fun id _ items hitems => .inl (hline id ▸ hitems))
    fun id hge hlt => ?_
  · unfold Plain at hp ⊢
    rw [← hlines]
    exact hp
  · rw [hlines] at hlt
    exact absurd hlt (Nat.not_lt_of_le hge)

theorem journal_setLabelValue (s : Assembly) (label : LabelId) (value : Option Value) :
    (s.setLabelValue label value).journal = s.journal := by
  obtain ⟨progress, heq⟩ := setLabelValue_eq s label value
  rw [heq]

theorem lines_setLabelValue (s : Assembly) (label : LabelId) (value : Option Value) :
    (s.setLabelValue label value).lines = s.lines := by
  obtain ⟨progress, heq⟩ := setLabelValue_eq s label value
  rw [heq]

theorem Change.region (h : Change may s s') (hs : s.Sound) (hr : s.Region may) : s'.Region may := by
  cases h with
  | around hlines _ _ _ _ hjournal => exact hr.sameLines hlines hjournal
  | report | define | document | register | addScope => exact hr.sameLines rfl rfl
  | mark id state =>
    refine hr.modifyLine id (Line.scope_mark _ _) (Line.isPlain_congr (Line.kind_mark _ _))
      fun items hitems => .inl ?_
    rw [Line.linesBelow_congr (Line.kind_mark _ _)] at hitems
    exact hitems
  | modify id f hown href =>
    refine hr.modifyLine id href.scope href.plain fun items hitems => ?_
    exact (href.below items hitems).imp_right fun h item hitem =>
      (h item hitem).mono fun j hj => may.sub_attach j hj.1
  | name id label => exact hr.modifyLine id rfl rfl fun _ hitems => .inl hitems
  | assign label value =>
    exact hr.sameLines (lines_setLabelValue s label value) (journal_setLabelValue s label value)
  | push l hl =>
    have hline := line_push (s := s) (l := l) hs.free
    have hsize := size_push (s := s) (l := l) hs.free
    refine hr.step (plain_of_push hs.free) rfl (fun id hid => ?_) (fun id hid items hitems => ?_) fun id hge hlt => ?_
    · rw [hline, if_neg (Nat.ne_of_lt hid)]
    · rw [hline, if_neg (Nat.ne_of_lt hid)] at hitems
      exact .inl hitems
    · rw [hsize] at hlt
      have heq : id = s.lines.size := Nat.le_antisymm (Nat.le_of_lt_succ hlt) hge
      rw [hline, if_pos heq]
      exact ⟨hl.room, hl.below⟩

theorem Changes.region (h : Changes may s s') (hs : s.Sound) (hr : s.Region may) : s'.Region may := by
  induction h with
  | refl => exact hr
  | tail hrun hstep ih => exact hstep.region (Changes.sound hrun hs) ih

theorem Change.size_le (h : Change may s s') : s.lines.size ≤ s'.lines.size := by
  cases h with
  | around hlines => exact Nat.le_of_eq (congrArg Arena.size hlines.symm)
  | report | define | document | register | addScope => exact Nat.le_refl _
  | mark id state => exact Nat.le_of_eq (size_modifyLine s id _).symm
  | modify id f => exact Nat.le_of_eq (size_modifyLine s id f).symm
  | name id label => exact Nat.le_of_eq (size_modifyLine s id _).symm
  | assign label value =>
    rw [lines_setLabelValue]
  | push l =>
    unfold Arena.push
    split
    · exact Nat.le_of_eq Array.size_setIfInBounds.symm
    · exact Nat.le_trans (Nat.le_succ _) (Nat.le_of_eq (Array.size_push l).symm)

theorem Changes.size_le (h : Changes may s s') : s.lines.size ≤ s'.lines.size := by
  induction h with
  | refl => exact Nat.le_refl _
  | tail _ hstep ih => exact Nat.le_trans ih hstep.size_le

theorem Change.scopes_le (h : Change may s s') (hs : s.Sound) : s.symbols.scopes.size ≤ s'.symbols.scopes.size := by
  cases h with
  | around _ hsymbols => rw [hsymbols]
  | report | mark | modify | name | document | push => exact Nat.le_refl _
  | define id hcreate =>
    exact Nat.le_of_eq (SymbolTable.scopes_createLabel hs.freeLabels hcreate).1.symm
  | assign label value =>
    obtain ⟨progress, heq⟩ := setLabelValue_eq s label value
    rw [heq]
    unfold SymbolTable.setValue
    split
    · exact Nat.le_refl _
    · exact Nat.le_refl _
  | register symbols _ hscopes => exact Nat.le_of_eq (congrArg Array.size hscopes.symm)
  | addScope kind parent source =>
    rw [SymbolTable.addScope_of_free hs.freeScopes]
    exact Array.size_push _ ▸ Nat.le_succ _

theorem Changes.scopes_le (h : Changes may s s') (hs : s.Sound) : s.symbols.scopes.size ≤ s'.symbols.scopes.size := by
  induction h with
  | refl => exact Nat.le_refl _
  | tail hrun hstep ih => exact Nat.le_trans ih (hstep.scopes_le (Changes.sound hrun hs))

/-! ## Permits -/

theorem allows_between {n m : Nat} (h : n ≤ m) : (Permit.between n m).Allows m :=
  fun _ hid => ⟨Nat.le_trans h hid, Nat.le_trans h hid, hid⟩

theorem allows_mono {n m : Nat} (h : may.Allows n) (hle : n ≤ m) : may.Allows m :=
  fun id hid => h id (Nat.le_trans hle hid)

theorem region_from (s : Assembly) : s.Region (.from s.lines.size) where
  room id hge hlt := absurd hlt (Nat.not_lt_of_le hge)
  below id hge items hitems := by
    rw [line_of_size_le hge] at hitems
    cases hitems

theorem region_undeclared (s : Assembly) : s.Region (.undeclared s.lines.size) :=
  ⟨(region_from s).room, (region_from s).below⟩

theorem Refines.mono {own own' : LineId → Prop} (hown : ∀ id, own id → own' id) {l l' : Line}
    (h : Refines own s id l l') : Refines own' s id l l' where
  place := h.place
  state := h.state
  labelId := h.labelId
  org := h.org
  base := h.base
  bytes := h.bytes
  plain := h.plain
  directive := h.directive
  complete := h.complete
  consistent := h.consistent
  data := h.data
  owned := h.owned
  rows := h.rows
  below items hitems := (h.below items hitems).imp_right fun hnew item hitem =>
    (hnew item hitem).mono fun id hid => ⟨hown id hid.1, hid.2⟩

theorem Change.mono (hchange : ∀ id, may.change id → may'.change id)
    (hdeclare : ∀ id, may.declare id → may'.declare id) (hattach : ∀ id, may.attach id → may'.attach id)
    (h : Change may s s') : Change may' s s' := by
  cases h with
  | around hlines hsymbols hdiagnostics hpass hunsettled hjournal hunits hcursor himage hrows hstopped =>
    exact .around hlines hsymbols hdiagnostics hpass hunsettled hjournal hunits hcursor himage hrows hstopped
  | report d => exact .report d
  | mark id state h => exact .mark id state h
  | modify id f hown h hgrows hkeeps =>
    exact .modify id f (hchange id hown) (h.mono hattach) hgrows (hkeeps.imp_left (.imp_left (hdeclare id)))
  | name id label hown h hfree => exact .name id label (hchange id hown) h hfree
  | define id h hroom hplain => exact .define id h hroom hplain
  | assign label value h hfree => exact .assign label value h hfree
  | document label doc => exact .document label doc
  | register symbols hlabels hscopes hfreeLabels hfreeScopes hgroups =>
    exact .register symbols hlabels hscopes hfreeLabels hfreeScopes hgroups
  | addScope kind parent source h => exact .addScope kind parent source h
  | push l h => exact .push l h

theorem Changes.mono (hchange : ∀ id, may.change id → may'.change id)
    (hdeclare : ∀ id, may.declare id → may'.declare id) (hattach : ∀ id, may.attach id → may'.attach id)
    (h : Changes may s s') : Changes may' s s' := by
  induction h with
  | refl => exact .refl
  | tail _ hstep ih => exact ih.tail (hstep.mono hchange hdeclare hattach)

theorem Step.mono (hchange : ∀ id, may.change id → may'.change id)
    (hdeclare : ∀ id, may.declare id → may'.declare id) (hattach : ∀ id, may.attach id → may'.attach id)
    (hwrite : ∀ id, may.write id → may'.write id) (h : Step may s s') : Step may' s s' := by
  cases h with
  | change h => exact .change (h.mono hchange hdeclare hattach)
  | hide label hplain => exact .hide label hplain
  | unhide h hplain => exact .unhide h hplain
  | begin id hown hplain => exact .begin id (hwrite id hown) hplain
  | enter id hown => exact .enter id (hwrite id hown)
  | count id hown => exact .count id (hwrite id hown)
  | number id hown label value h henum => exact .number id (hwrite id hown) label value h henum
  | move id hown cursor => exact .move id (hwrite id hown) cursor
  | evaluate id e token hid => exact .evaluate id e token hid
  | emit id hown cells h lays => exact .emit id (hwrite id hown) cells h lays

theorem Steps.mono (hchange : ∀ id, may.change id → may'.change id)
    (hdeclare : ∀ id, may.declare id → may'.declare id) (hattach : ∀ id, may.attach id → may'.attach id)
    (hwrite : ∀ id, may.write id → may'.write id) (h : Steps may s s') : Steps may' s s' := by
  induction h with
  | refl => exact .refl
  | tail _ hstep ih => exact ih.tail (hstep.mono hchange hdeclare hattach hwrite)

theorem Steps.of_still (h : Steps .still s s') : Steps may s s' := by
  refine h.mono ?_ ?_ ?_ ?_
  · exact fun _ hid => hid.elim
  · exact fun _ hid => hid.elim
  · exact fun _ hid => hid.elim
  · exact fun _ hid => hid.elim

theorem Change.units (h : Change may s s') : s'.units.map (fun u => u.items) = s.units.map fun u => u.items := by
  cases h with
  | around _ _ _ _ _ _ h => exact h
  | assign label value =>
    obtain ⟨progress, heq⟩ := setLabelValue_eq s label value
    rw [heq]
  | report | mark | modify | name | define | document | register | addScope | push => rfl

/-- Only lines that may be put below others come into lists, and only into those of lines that may be
changed. -/
theorem Change.attaches (h : Change may s s') (hs : s.Sound) {owner : Option LineId} {k : LineId}
    (hk : k ∈ s'.held owner) : k ∈ s.held owner ∨ may.attach k ∧ ∀ i ∈ owner, may.change i := by
  cases owner with
  | none =>
    rw [held_none, h.units] at hk
    exact .inl hk
  | some j =>
    -- the line itself, if it is the one that is changed
    have hmodify : ∀ {id : LineId} {f : Line → Line}, k ∈ (s.modifyLine id f).held (some j) →
        (∀ items ∈ linesBelow (f (s.line id)), items ∈ linesBelow (s.line id) ∨
          may.change id ∧ ∀ item ∈ items, item.Proper fun i => may.attach i ∧ i < s.lines.size) →
        k ∈ s.held (some j) ∨ may.attach k ∧ ∀ i ∈ some j, may.change i := by
      intro id f hk hbelow
      rw [held_some, line_modifyLine] at hk
      split at hk
      · rename_i heq
        obtain ⟨items, hitems, item, hitem, hk⟩ := mem_lineIds.mp hk
        rw [heq.1] at hitems ⊢
        rcases hbelow items hitems with h | h
        · exact .inl (mem_lineIds.mpr ⟨items, h, item, hitem, hk⟩)
        · refine .inr ⟨((h.2 item hitem).mem_lines k hk).1, fun i hi => ?_⟩
          cases hi
          exact h.1
      · exact .inl hk
    cases h with
    | around hlines =>
      rw [held_some, line, hlines] at hk
      exact .inl hk
    | report | define | document | register | addScope => exact .inl hk
    | mark id state =>
      refine hmodify hk fun items hitems => .inl ?_
      rw [Line.linesBelow_congr (Line.kind_mark _ _)] at hitems
      exact hitems
    | modify id f hown href => exact hmodify hk fun items hitems => (href.below items hitems).imp_right (.intro hown)
    | name id label => exact hmodify hk fun _ hitems => .inl hitems
    | assign label value =>
      rw [held_some, line, lines_setLabelValue] at hk
      exact .inl hk
    | push l hl =>
      rw [held_some, line_push hs.free] at hk
      split at hk
      · rw [hl.below] at hk
        cases hk
      · exact .inl hk

theorem Changes.attaches (h : Changes may s s') (hs : s.Sound) {owner : Option LineId} {k : LineId}
    (hk : k ∈ s'.held owner) : k ∈ s.held owner ∨ may.attach k ∧ ∀ i ∈ owner, may.change i := by
  induction h with
  | refl => exact .inl hk
  | tail hrun hstep ih =>
    rcases hstep.attaches (Changes.sound hrun hs) hk with h | h
    · exact ih h
    · exact .inr h

theorem Change.kind_eq (h : Change may s s') (hs : s.Sound) (hid : id < s.lines.size)
    (hown : ¬ may.change id) : (s'.line id).kind = (s.line id).kind := by
  cases h with
  | around hlines =>
    unfold line
    rw [hlines]
  | report | define | document | register | addScope => rfl
  | mark j state =>
    unfold Assembly.mark
    rw [line_modifyLine]
    split
    · exact Line.kind_mark _ _
    · rfl
  | modify j f hj =>
    rw [line_modifyLine, if_neg]
    rintro ⟨rfl, _⟩
    exact hown hj
  | name j label =>
    rw [line_modifyLine]
    split
    · rfl
    · rfl
  | assign label value =>
    unfold line
    rw [lines_setLabelValue]
  | push l => rw [line_push hs.free, if_neg (Nat.ne_of_lt hid)]

theorem Changes.kind_eq (h : Changes may s s') (hs : s.Sound) (hid : id < s.lines.size)
    (hown : ¬ may.change id) : (s'.line id).kind = (s.line id).kind := by
  induction h with
  | refl => rfl
  | tail hrun hstep ih =>
    have hlt := Nat.lt_of_lt_of_le hid (Changes.size_le hrun)
    exact (hstep.kind_eq (Changes.sound hrun hs) hlt hown).trans ih

/-! ## Runs -/

/-- Whether changes lead from one assembly to another, if the first is sound and works in a region. -/
def Runs (may : Permit) (s s' : Assembly) : Prop := s.Sound → s.Region may → Changes may s s'

namespace Runs

theorem refl (s : Assembly) : Runs may s s := fun _ _ => .refl

theorem trans (h : Runs may s s') (h' : Runs may s' s'') : Runs may s s'' := by
  intro hs hr
  have hrun := h hs hr
  exact Relation.ReflTransGen.trans hrun (h' (hrun.sound hs) (hrun.region hs hr))

theorem of (h : s.Sound → s.Region may → Runs may s s') : Runs may s s' :=
  fun hs hr => h hs hr hs hr

theorem seq (h : Runs may s s') (h' : s.Sound → Changes may s s' → Runs may s' s'') : Runs may s s'' := by
  intro hs hr
  have hrun := h hs hr
  exact Relation.ReflTransGen.trans hrun (h' hs hrun (hrun.sound hs) (hrun.region hs hr))

theorem andThen (h : Runs may s s') (h' : s.lines.size ≤ s'.lines.size → Runs may s' s'') :
    Runs may s s'' := h.seq fun _ hrun => h' hrun.size_le

theorem result {α : Type} {r : α × Assembly} {a : α} (h : Runs may s r.2) (heq : r = (a, s')) : Runs may s s' := by
  rw [heq] at h
  exact h

theorem single (h : Change may s s') : Runs may s s' := fun _ _ => .single h

theorem fail (s : Assembly) (id : LineId) (span : Span) (message : String) :
    Runs may s (s.fail id span message) := fun _ _ => changes_fail s id span message

theorem foldl {α : Type} {f : Assembly → α → Assembly} {n : Nat} : ∀ {xs : List α} {s : Assembly}, n ≤ s.lines.size →
      (∀ s, n ≤ s.lines.size → ∀ x ∈ xs, Runs may s (f s x)) → Runs may s (xs.foldl f s)
  | [], s, _, _ => refl s
  | x :: _, s, hn, hf =>
    (hf s hn x List.mem_cons_self).andThen fun hle =>
      foldl (Nat.le_trans hn hle) fun s hs y hy => hf s hs y (List.mem_cons_of_mem x hy)

end Runs

end CrossAssembler.Assembly
