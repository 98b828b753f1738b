import CrossAssembler.Proofs.Assembly.Numbering

/-!
# The lines that are visited

Lines stand below others like the nodes of trees. Work on some lines reaches them and those below them,
each at most once, and puts only new lines below them.

Principal results: `Visits` — a run visits lines of its own and new ones, each once; `Visits.trans` — so do
two runs whose lines are different; `Apart.disjoint` — lines that stand apart have no lines below them in
common.
-/

namespace CrossAssembler

/-- The line that is reached, if one is. -/
def Event.line? : Event → Option LineId
  | .entered id _ => some id
  | _ => none

/-- The line that is written, with its bytes, if one is. -/
def Event.bytes? : Event → Option (LineId × List Cell)
  | .emitted id cells => some (id, cells)
  | _ => none

/-- Only the given lines may be reached and written. -/
def Permit.visiting (ids : List LineId) : Permit :=
  ⟨fun _ => True, fun _ => True, fun _ => True, (· ∈ ids), fun _ h => h, fun _ h => h⟩

namespace Assembly

variable {s s' s'' : Assembly} {may : Permit} {ids ids' : List LineId}
variable {i k : LineId} {roots roots' : List LineId}

/-- The lines that the running pass has reached, the earliest first. -/
def reached (s : Assembly) : List LineId := s.journal.reverse.filterMap Event.line?

/-- The lines that the running pass has written, with their bytes, the earliest first. -/
def written (s : Assembly) : List (LineId × List Cell) := s.journal.reverse.filterMap Event.bytes?

theorem reached_cons (event : Event) (h : s'.journal = event :: s.journal) :
    s'.reached = s.reached ++ event.line?.toList := by
  rw [reached, h, List.reverse_cons, List.filterMap_append]
  cases hline : event.line? <;> simp [reached, hline]

theorem written_cons (event : Event) (h : s'.journal = event :: s.journal) :
    s'.written = s.written ++ event.bytes?.toList := by
  rw [written, h, List.reverse_cons, List.filterMap_append]
  cases hbytes : event.bytes? <;> simp [written, hbytes]

/-! ## Steps that write nothing -/

/-- Whether nothing is reached, recorded or written. -/
structure Steady (s s' : Assembly) : Prop where
  cursor : s'.cursor = s.cursor
  image : s'.image = s.image
  reached : s'.reached = s.reached
  written : s'.written = s.written
  base : ∀ id < s.lines.size, (s'.line id).base = (s.line id).base
  bytes : ∀ id < s.lines.size, (s'.line id).bytes = (s.line id).bytes
  size : s.lines.size ≤ s'.lines.size
  failed : s.Failed → s'.Failed

namespace Steady

theorem refl (s : Assembly) : Steady s s :=
  ⟨rfl, rfl, rfl, rfl, fun _ _ => rfl, fun _ _ => rfl, Nat.le_refl _, id⟩

theorem trans (h : Steady s s') (h' : Steady s' s'') : Steady s s'' where
  cursor := h'.cursor.trans h.cursor
  image := h'.image.trans h.image
  reached := h'.reached.trans h.reached
  written := h'.written.trans h.written
  base id hid := (h'.base id (Nat.lt_of_lt_of_le hid h.size)).trans (h.base id hid)
  bytes id hid := (h'.bytes id (Nat.lt_of_lt_of_le hid h.size)).trans (h.bytes id hid)
  size := Nat.le_trans h.size h'.size
  failed hfailed := h'.failed (h.failed hfailed)

theorem of_lines (hlines : s'.lines = s.lines) (hjournal : s'.journal = s.journal)
    (hcursor : s'.cursor = s.cursor) (himage : s'.image = s.image) (hfailed : s.Failed → s'.Failed) :
    Steady s s' := by
  have hline : ∀ id, s'.line id = s.line id := by
    intro id
    unfold line
    rw [hlines]
  refine ⟨hcursor, himage, ?_, ?_, fun id _ => by rw [hline], fun id _ => by rw [hline], ?_, hfailed⟩
  · rw [Assembly.reached, hjournal]
    rfl
  · rw [Assembly.written, hjournal]
    rfl
  · rw [hlines]

theorem modifyLine (s : Assembly) (id : LineId) {f : Line → Line} (hbase : (f (s.line id)).base = (s.line id).base)
    (hbytes : (f (s.line id)).bytes = (s.line id).bytes) : Steady s (s.modifyLine id f) := by
  refine ⟨rfl, rfl, rfl, rfl, fun j _ => ?_, fun j _ => ?_, Nat.le_of_eq (size_modifyLine s id f).symm, fun h => h⟩
  · rw [line_modifyLine]
    split
    · rename_i hj
      rw [hj.1, hbase]
    · rfl
  · rw [line_modifyLine]
    split
    · rename_i hj
      rw [hj.1, hbytes]
    · rfl

theorem mark (s : Assembly) (id : LineId) (state : LineState) : Steady s (s.mark id state) := by
  refine .modifyLine s id ?_ ?_
  · unfold Line.mark
    split <;> rfl
  · unfold Line.mark
    split <;> rfl

theorem setLabelValue (s : Assembly) (label : LabelId) (value : Option Value) :
    Steady s (s.setLabelValue label value) := by
  obtain ⟨progress, heq⟩ := setLabelValue_eq s label value
  rw [heq]
  exact .of_lines rfl rfl rfl rfl fun h => h

theorem report (s : Assembly) (d : Diagnostic) : Steady s (s.report d) :=
  .of_lines rfl rfl rfl rfl (failed_report d)

theorem fail (s : Assembly) (id : LineId) (span : Span) (message : String) :
    Steady s (s.fail id span message) := (report s _).trans (mark _ id _)

theorem countPending (s : Assembly) : Steady s s.countPending := .of_lines rfl rfl rfl rfl fun h => h

theorem valueError (s : Assembly) (id : LineId) (span : Span) (message : String) :
    Steady s (s.valueError id span message) := by
  unfold Assembly.valueError
  split
  · exact fail s id span message
  · exact countPending s

theorem note (s : Assembly) {event : Event} (hline : event.line? = none) (hbytes : event.bytes? = none) :
    Steady s (s.note event) := by
  refine ⟨rfl, rfl, ?_, ?_, fun _ _ => rfl, fun _ _ => rfl, Nat.le_refl _, fun h => h⟩
  · rw [reached_cons (s := s) event rfl, hline]
    exact List.append_nil _
  · rw [written_cons (s := s) event rfl, hbytes]
    exact List.append_nil _

theorem evaluate (s : Assembly) (id : LineId) (e : Expression) (token : Token) :
    Steady s (s.evaluate id e token).2 := by
  have hnote : ∀ evaluation, Steady s (s.note (.evaluated evaluation)) := fun _ => note s rfl rfl
  unfold Assembly.evaluate
  simp only
  split
  · exact hnote _
  · exact (hnote _).trans (countPending _)
  · exact (hnote _).trans (valueError _ id _ _)

theorem evaluateWord (s : Assembly) (id : LineId) (e : Expression) (token : Token) :
    Steady s (s.evaluateWord id e token).2 := by
  rcases evaluateWord_eq s id e token with ⟨heq, -⟩ | ⟨message, heq⟩
  · rw [heq]
    exact evaluate s id e token
  · rw [heq]
    exact (evaluate s id e token).trans (fail _ id _ _)

theorem rowLength (s : Assembly) (id : LineId) (row : EnumRow) : Steady s (s.rowLength id row).2 := by
  unfold Assembly.rowLength
  split
  · exact evaluateWord s id _ _
  · exact refl s
  · exact refl s

theorem compileRows (id : LineId) :
    ∀ (rows : List EnumRow) (s : Assembly) (current : Option Int64), Steady s (s.compileRows id current rows)
  | [], s, _ => refl s
  | row :: rows, s, current => by
    have hcount : Steady s (s.countRow row.label current) := by
      cases current with
      | none => exact refl s
      | some n => exact setLabelValue s row.label _
    rw [compileRows_cons]
    exact (hcount.trans (rowLength _ id row)).trans (compileRows id rows _ _)

theorem compileEnumeration (s : Assembly) (id : LineId) (part : Line.CommandPart) :
    Steady s (s.compileEnumeration id part) := by
  have hbegin : Steady s (s.note (.numbered id)) := note s rfl rfl
  unfold Assembly.compileEnumeration
  split
  · simp only
    split
    · exact hbegin.trans (compileRows id _ _ _)
    refine (hbegin.trans ?_).trans (compileRows id _ _ _)
    unfold argumentWord
    split
    · exact refl _
    · split
      · exact evaluateWord _ id _ _
      · exact refl _
  · exact refl s

end Steady

theorem Change.steady (h : Change may s s') (hs : s.Sound) : Steady s s' := by
  cases h with
  | around hlines _ hdiagnostics _ _ hjournal _ hcursor himage =>
    exact .of_lines hlines hjournal hcursor himage (failed_of_diagnostics hdiagnostics).mpr
  | report d => exact .report s d
  | define | document | register | addScope => exact .of_lines rfl rfl rfl rfl fun h => h
  | mark id state => exact .mark s id state
  | modify id f _ href => exact .modifyLine s id href.base href.bytes
  | name id label => exact .modifyLine s id rfl rfl
  | assign label value => exact .setLabelValue s label value
  | push l =>
    refine ⟨rfl, rfl, rfl, rfl, fun id hid => ?_, fun id hid => ?_, (Change.push l ‹_› : Change may s _).size_le,
      fun h => h⟩
    · rw [line_push hs.free, if_neg (Nat.ne_of_lt hid)]
    · rw [line_push hs.free, if_neg (Nat.ne_of_lt hid)]

theorem Step.steady (h : Step may s s') (hs : s.Sound) (hwrite : ∀ id, ¬ may.write id) : Steady s s' := by
  cases h with
  | change h => exact h.steady hs
  | hide | unhide => exact .of_lines rfl rfl rfl rfl fun h => h
  | begin id hown => exact absurd hown (hwrite id)
  | enter id hown => exact absurd hown (hwrite id)
  | move id hown => exact absurd hown (hwrite id)
  | count id hown => exact absurd hown (hwrite id)
  | number id hown => exact absurd hown (hwrite id)
  | evaluate id e token => exact .evaluate s id e token
  | emit id hown => exact absurd hown (hwrite id)

theorem Steps.steady (h : Steps may s s') (hs : s.Sound) (hwrite : ∀ id, ¬ may.write id) : Steady s s' := by
  induction h with
  | refl => exact .refl s
  | tail hrun hstep ih => exact ih.trans (hstep.steady (Steps.sound hrun hs) hwrite)

/-! ## Tours -/

/-- A run, by the lines that it visits, in order. -/
inductive Tour (s : Assembly) : List LineId → Assembly → Prop
  | refl : Tour s [] s
  | steady {ids : List LineId} {t t' : Assembly} (h : Tour s ids t) (h' : Steady t t') : Tour s ids t'
  | move {ids : List LineId} {t : Assembly} (h : Tour s ids t) (cursor : Cursor) : Tour s ids { t with cursor }
  /-- A divider of a conditional is looked at. -/
  | begin {ids : List LineId} {t : Assembly} (h : Tour s ids t) (id : LineId) :
      Tour s (ids ++ [id]) (t.beginLine id)
  | enter {ids : List LineId} {t : Assembly} (h : Tour s ids t) (id : LineId) :
      Tour s (ids ++ [id]) (t.enterLine id)
  /-- A line writes its bytes after it has been reached, before any other line is. -/
  | write {ids : List LineId} {t t' : Assembly} {id : LineId} (h : Tour s ids t) (hid : id < t.lines.size)
      (h' : Steady (t.enterLine id) t') (cells : List Cell) : Tour s (ids ++ [id]) (t'.emit id cells)

theorem Tour.trans (h : Tour s ids s') (h' : Tour s' ids' s'') : Tour s (ids ++ ids') s'' := by
  induction h' with
  | refl => exact (List.append_nil ids).symm ▸ h
  | steady _ h' ih => exact ih.steady h'
  | move _ cursor ih => exact ih.move cursor
  | begin _ id ih => exact List.append_assoc .. ▸ ih.begin id
  | enter _ id ih => exact List.append_assoc .. ▸ ih.enter id
  | write _ hid h' cells ih => exact List.append_assoc .. ▸ ih.write hid h' cells

/-! ## Lines below others -/

/-- Whether a line stands below another one, or is the same. -/
def Below (s : Assembly) : LineId → LineId → Prop :=
  Relation.ReflTransGen fun i k => k ∈ s.held (some i)

/-- Whether a line is one of some lines, or stands below one. -/
def Under (s : Assembly) (roots : List LineId) (k : LineId) : Prop := ∃ i ∈ roots, s.Below i k

/-- Whether lines are different and none stands below another. -/
structure Apart (s : Assembly) (roots : List LineId) : Prop where
  nodup : roots.Nodup
  eq_of_below : ∀ i ∈ roots, ∀ j ∈ roots, s.Below i j → i = j

theorem Below.le (h : s.Below i k) (hs : s.Sound) : i ≤ k := by
  induction h with
  | refl => exact Nat.le_refl _
  | tail _ hlink ih => exact Nat.le_trans ih (Nat.le_of_lt (hs.forest.ordered _ _ hlink))

theorem Under.of_mem (h : k ∈ roots) : s.Under roots k := ⟨k, h, .refl⟩

theorem Under.subset (h : s.Under roots k) (hsub : roots ⊆ roots') :
    s.Under roots' k := h.imp fun _ hi => ⟨hsub hi.1, hi.2⟩

theorem Under.lt (h : s.Under roots k) (hs : s.Sound) (hroots : ∀ i ∈ roots, i < s.lines.size) : k < s.lines.size := by
  obtain ⟨i, hi, hbelow⟩ := h
  cases hbelow with
  | refl => exact hroots _ hi
  | tail _ hlink => exact hs.held_lt hlink

/-- Two lines above the same line stand one below the other. -/
theorem Below.total {j : LineId} (h : s.Below i k) (h' : s.Below j k) (hs : s.Sound) : s.Below i j ∨ s.Below j i := by
  have hunique : Relator.RightUnique (Function.swap fun i k => k ∈ s.held (some i)) := by
    intro k i j hi hj
    exact Option.some.inj (hs.forest.owned hi hj)
  have htotal := Relation.ReflTransGen.total_of_right_unique hunique
    (Relation.reflTransGen_swap.mpr h) (Relation.reflTransGen_swap.mpr h')
  exact htotal.symm.imp Relation.reflTransGen_swap.mp Relation.reflTransGen_swap.mp

theorem Apart.sublist (h : s.Apart roots) (hsub : roots'.Sublist roots) : s.Apart roots' :=
  ⟨h.nodup.sublist hsub, fun i hi j hj => h.eq_of_below i (hsub.subset hi) j (hsub.subset hj)⟩

theorem Apart.disjoint (h : s.Apart (roots ++ roots')) (hs : s.Sound) (hk : s.Under roots k) : ¬ s.Under roots' k := by
  rintro ⟨j, hj, hbelow'⟩
  obtain ⟨i, hi, hbelow⟩ := hk
  have hi' : i ∈ roots ++ roots' := List.mem_append_left _ hi
  have hj' : j ∈ roots ++ roots' := List.mem_append_right _ hj
  have heq : i = j := by
    rcases hbelow.total hbelow' hs with h' | h'
    · exact h.eq_of_below i hi' j hj' h'
    · exact (h.eq_of_below j hj' i hi' h').symm
  exact (List.nodup_append.mp h.nodup).2.2 i hi j hj heq

theorem apart_held (hs : s.Sound) (owner : Option LineId) : s.Apart (s.held owner) := by
  refine ⟨hs.forest.distinct owner, fun i hi j hj hbelow => ?_⟩
  cases hbelow with
  | refl => rfl
  | @tail k _ hbelow hlink =>
    have howner : owner = some k := hs.forest.owned hj hlink
    rw [howner] at hi
    exact absurd (Below.le hbelow hs) (Nat.not_le_of_lt (hs.forest.ordered k i hi))

theorem Under.held_lt (h : s.Under (s.held (some i)) k) (hs : s.Sound) : i < k := by
  obtain ⟨j, hj, hbelow⟩ := h
  exact Nat.lt_of_lt_of_le (hs.forest.ordered i j hj) (hbelow.le hs)

/-! ## Lines put below others -/

/-- Whether only new lines are put below others, and only below own lines and new ones. -/
def Adds (own : LineId → Prop) (s s' : Assembly) : Prop :=
  ∀ i k, k ∈ s'.held (some i) → k ∈ s.held (some i) ∨ (own i ∨ s.lines.size ≤ i) ∧ s.lines.size ≤ k

theorem Writes.held (h : Writes s s') (i : LineId) : s'.held (some i) = s.held (some i) := by
  rw [held_some, held_some, Line.linesBelow_congr (h.kinds i)]

theorem Steps.attaches (h : Steps may s s') (hs : s.Sound) (hk : k ∈ s'.held (some i)) :
    k ∈ s.held (some i) ∨ may.change i ∧ may.attach k := by
  induction h with
  | refl => exact .inl hk
  | tail hrun hstep ih =>
    rcases hstep.change_or_writes with h | h
    · rcases h.attaches (Steps.sound hrun hs) hk with hold | hnew
      · exact ih hold
      · exact .inr ⟨hnew.2 i rfl, hnew.1⟩
    · rw [h.held] at hk
      exact ih hk

namespace Adds

variable {own own' : LineId → Prop}
variable {roots : List LineId}

theorem refl (s : Assembly) : Adds own s s := fun _ _ => .inl

theorem mono (h : Adds own s s') (hsub : ∀ k, own k → own' k) : Adds own' s s' := fun i k hk =>
  (h i k hk).imp_right fun hnew => ⟨hnew.1.imp_left (hsub i), hnew.2⟩

theorem trans (h : Adds own s s') (h' : Adds own' s' s'') (hown : ∀ k, own' k → own k ∨ s.lines.size ≤ k)
    (hle : s.lines.size ≤ s'.lines.size) : Adds own s s'' := by
  intro i k hk
  rcases h' i k hk with hold | ⟨hi, hk⟩
  · exact h i k hold
  · refine .inr ⟨?_, Nat.le_trans hle hk⟩
    exact hi.elim (hown i) fun hi => .inr (Nat.le_trans hle hi)

theorem under (h : Adds own s s') (hs : s.Sound) {k : LineId}
    (hroots : ∀ i ∈ roots, i < s.lines.size) (hown : ∀ k, s.Under roots k → ¬ own k)
    (hk : s'.Under roots k) : s.Under roots k := by
  obtain ⟨i, hi, hbelow⟩ := hk
  induction hbelow with
  | refl => exact .of_mem hi
  | @tail j k _ hlink ih =>
    rcases h j k hlink with hold | ⟨hj, -⟩
    · obtain ⟨i', hi', hbelow⟩ := ih
      exact ⟨i', hi', hbelow.tail hold⟩
    · rcases hj with hj | hj
      · exact absurd hj (hown j ih)
      · exact absurd (ih.lt hs hroots) (Nat.not_lt_of_le hj)

theorem under_or_new (h : Adds own s s') (hs' : s'.Sound) {k : LineId}
    (hk : s'.Under roots k) : s.Under roots k ∨ s.lines.size ≤ k := by
  obtain ⟨i, hi, hbelow⟩ := hk
  induction hbelow with
  | refl => exact .inl (.of_mem hi)
  | @tail j k _ hlink ih =>
    rcases h j k hlink with hold | hnew
    · rcases ih with ⟨i', hi', hbelow⟩ | hnew
      · exact .inl ⟨i', hi', hbelow.tail hold⟩
      · exact .inr (Nat.le_trans hnew (Nat.le_of_lt (hs'.forest.ordered j k hlink)))
    · exact .inr hnew.2

theorem below (h : Adds own s s') (hs' : s'.Sound) {i j : LineId} (hbelow : s'.Below i j)
    (hj : j < s.lines.size) : s.Below i j := by
  induction hbelow with
  | refl => exact .refl
  | @tail j k _ hlink ih =>
    rcases h j k hlink with hold | hnew
    · exact (ih (Nat.lt_trans (hs'.forest.ordered j k hlink) hj)).tail hold
    · exact absurd hj (Nat.not_lt_of_le hnew.2)

theorem apart (h : Adds own s s') (hs' : s'.Sound)
    (hroots : ∀ i ∈ roots, i < s.lines.size) (hapart : s.Apart roots) : s'.Apart roots :=
  ⟨hapart.nodup, fun i hi j hj hbelow => hapart.eq_of_below i hi j hj (h.below hs' hbelow (hroots j hj))⟩

end Adds

/-! ## Visits -/

/-- Whether a run visits the given lines, all different and of its own or new, and puts only new lines
below others. It leaves other enumerations alone, and those that are compiled count their rows. -/
structure Visits (own : LineId → Prop) (ids : List LineId) (s s' : Assembly) : Prop where
  steps : Steps (.visiting ids) s s'
  readied : s'.Readied
  adds : Adds own s s'
  tour : Tour s ids s'
  nodup : ids.Nodup
  within : ∀ k ∈ ids, (own k ∨ s.lines.size ≤ k) ∧ k < s'.lines.size
  kinds : ∀ k < s.lines.size, ¬ own k → (s.line k).directive? = some .enumeration → (s'.line k).kind = (s.line k).kind
  numbers : ∀ k, .numbered k ∈ s'.journal → .numbered k ∈ s.journal ∨ k ∈ ids ∧ Numbered s s' k

theorem Steps.visiting (h : Steps may s s') (hwrite : ∀ k, may.write k → k ∈ ids) : Steps (.visiting ids) s s' := by
  refine h.mono ?_ ?_ ?_ hwrite
  · exact fun _ _ => trivial
  · exact fun _ _ => trivial
  · exact fun _ _ => trivial

namespace Visits

variable {own own' : LineId → Prop}
variable {id : LineId}

theorem refl (hr : s.Readied) : Visits own [] s s :=
  ⟨.refl, hr, .refl s, .refl, .nil, nofun, fun _ _ _ _ => rfl, fun _ => .inl⟩

theorem mono (h : Visits own ids s s') (hsub : ∀ k, own k → own' k) : Visits own' ids s s' :=
  { h with
    adds := h.adds.mono hsub
    within := fun k hk => ⟨(h.within k hk).1.imp_left (hsub k), (h.within k hk).2⟩
    kinds := fun k hk hown => h.kinds k hk fun h => hown (hsub k h) }

theorem sound (h : Visits own ids s s') (hs : s.Sound) : s'.Sound := h.steps.sound hs

/-- A run after another one, which has not visited the own lines of the second but for some that are no
enumerations. -/
theorem trans (h : Visits own ids s s') (h' : Visits own' ids' s' s'') (hs : s.Sound)
    (hown : ∀ k, own' k → own k ∨ s.lines.size ≤ k)
    (hfresh : ∀ k ∈ ids, own' k → k ∉ ids' ∧ (s'.line k).directive? ≠ some .enumeration) :
    Visits own (ids ++ ids') s s'' := by
  have hle := h.steps.size_le
  have hdisjoint : ∀ k ∈ ids, k ∉ ids' := by
    intro k hk hk'
    rcases (h'.within k hk').1 with hown' | hnew
    · exact (hfresh k hk hown').1 hk'
    · exact Nat.not_lt_of_le hnew (h.within k hk).2
  refine ⟨(h.steps.visiting fun _ => List.mem_append_left _).trans (h'.steps.visiting fun _ => List.mem_append_right _),
    h'.readied, h.adds.trans h'.adds hown hle, h.tour.trans h'.tour, ?_, ?_, ?_, ?_⟩
  · exact List.nodup_append.mpr ⟨h.nodup, h'.nodup, fun k hk j hj heq => hdisjoint k hk (heq ▸ hj)⟩
  · intro k hk
    rcases List.mem_append.mp hk with hk | hk
    · exact ⟨(h.within k hk).1, Nat.lt_of_lt_of_le (h.within k hk).2 h'.steps.size_le⟩
    · obtain ⟨hk', hlt⟩ := h'.within k hk
      exact ⟨hk'.elim (hown k) fun hge => .inr (Nat.le_trans hle hge), hlt⟩
  · intro k hk hnot henum
    have hnot' : ¬ own' k := fun hk' => (hown k hk').elim hnot (Nat.not_le_of_lt hk)
    have hsame := (h.steps.linesKept hs).directive k hk
    exact (h'.kinds k (Nat.lt_of_lt_of_le hk hle) hnot' (hsame.trans henum)).trans (h.kinds k hk hnot henum)
  · intro k hk
    rcases h'.numbers k hk with hk | ⟨hk, hnumbered⟩
    · -- the first run has compiled the enumeration, and the second leaves it alone
      refine (h.numbers k hk).imp_right fun ⟨hk, hnumbered⟩ => ⟨List.mem_append_left _ hk, ?_⟩
      have hlt := (h.within k hk).2
      exact hnumbered.after h'.steps (h.sound hs) hlt
        (fun henum => h'.kinds k hlt (fun hk' => (hfresh k hk hk').2 henum) henum) (hdisjoint k hk)
    · refine .inr ⟨List.mem_append_right _ hk, hnumbered.earlier (h'.sound (h.sound hs)) fun henum label hrow => ?_⟩
      refine h.steps.value_row hs (fun d hd => Option.some.inj ?_) ((h'.steps.later (h.sound hs)).new _ hrow)
        fun hk' => hdisjoint k hk' hk
      exact ((h'.steps.linesKept (h.sound hs)).directive_some hd).symm.trans henum

/-- Work that writes nothing, puts only new lines below others and changes only own and new lines, or such
that are no enumerations. -/
theorem of_works (h : Works may s s') (hs : s.Sound) (hr : s.Readied) (hwrite : ∀ id, ¬ may.write id)
    (hadds : ∀ i k, may.change i → may.attach k → (own i ∨ s.lines.size ≤ i) ∧ s.lines.size ≤ k)
    (hkinds : ∀ k < s.lines.size, may.change k → own k ∨ (s.line k).directive? ≠ some .enumeration) :
    Visits own [] s s' := by
  obtain ⟨hsteps, hr'⟩ := h hs hr
  refine ⟨hsteps.visiting fun k hk => absurd hk (hwrite k), hr', fun i k hk => ?_,
    .steady .refl (hsteps.steady hs hwrite), .nil, nofun, fun k hk hown henum => ?_, fun k hk => .inl ?_⟩
  · exact (hsteps.attaches hs hk).imp_right fun hnew => hadds i k hnew.1 hnew.2
  · exact hsteps.kind_eq hs hk fun hchange => (hkinds k hk hchange).elim hown fun hother => hother henum
  · exact (hsteps.numbered hk).resolve_right (hwrite k)

theorem of_still (h : Steps .still s s') (hs : s.Sound) (hr : s.Readied) : Visits own [] s s' :=
  .of_works (.still h : Works .still s s') hs hr (fun _ => id) (fun _ _ h => h.elim) fun _ _ h => h.elim

theorem of_tending {tended : LineId → Prop} (h : Works (.tending tended) s s') (hs : s.Sound) (hr : s.Readied)
    (hkinds : ∀ k < s.lines.size, tended k → own k ∨ (s.line k).directive? ≠ some .enumeration) :
    Visits own [] s s' :=
  .of_works h hs hr (fun _ => id) (fun _ _ _ h => h.elim) hkinds

theorem result {α : Type} {r : α × Assembly} {a : α} (h : Visits own ids s r.2) (heq : r = (a, s')) :
    Visits own ids s s' := by
  rw [heq] at h
  exact h

theorem of_serving (hsteps : Steps (.serving id) s s') (htour : Tour s [id] s') (hs : s.Sound)
    (hr : s.Readied) (hid : id < s.lines.size)
    (hnumbers : .numbered id ∈ s'.journal → .numbered id ∈ s.journal ∨ Numbered s s' id) :
    Visits (· = id) [id] s s' := by
  refine ⟨hsteps.visiting fun _ => List.mem_singleton.mpr, hsteps.readied (fun _ h => h) hs hr, fun i k hk => .inl ?_,
    htour, List.nodup_singleton id, fun k hk => ?_, fun k hk hne _ => hsteps.kind_eq hs hk hne, fun k hk => ?_⟩
  · exact (hsteps.attaches hs hk).resolve_right fun hnew => hnew.2
  · rw [List.mem_singleton.mp hk]
    exact ⟨.inl rfl, Nat.lt_of_lt_of_le hid hsteps.size_le⟩
  · rcases hsteps.numbered hk with hold | rfl
    · exact .inl hold
    · exact (hnumbers hk).imp_right fun hnumbered => ⟨List.mem_singleton_self _, hnumbered⟩

theorem tended {tended : LineId → Prop} (h : Visits own ids s s') (h' : Works (.tending tended) s' s'')
    (hs : s.Sound) (hkinds : ∀ k, tended k → (s'.line k).directive? ≠ some .enumeration) :
    Visits own ids s s'' := by
  have hlast : Visits (fun _ => False) [] s' s'' := .of_tending h' (h.sound hs) h.readied fun k _ hk => .inr (hkinds k hk)
  exact List.append_nil ids ▸ h.trans hlast hs (fun _ hk => hk.elim) fun _ _ hk => hk.elim

theorem still (h : Visits own ids s s') (h' : Steps .still s' s'') (hs : s.Sound) : Visits own ids s s'' :=
  h.tended (show Works (.tending fun _ => False) s' s'' from Works.still h') hs fun _ hk => hk.elim

theorem between {t t' : Assembly} (h : Visits own ids t t') (hs : s.Sound) (hr : s.Readied)
    (hbefore : Change .still s t) (hafter : Change .still t' s') : Visits own ids s s' := by
  have hfirst : Visits own [] s t := .of_still (.single (.change hbefore)) hs hr
  exact (hfirst.trans h hs (fun _ => .inl) nofun).still (.single (.change hafter)) hs

/-- Runs over lines that stand apart, one after the other. -/
theorem sequel {roots roots' : List LineId} (h : Visits (s.Under roots) ids s s')
    (h' : Visits (s'.Under roots') ids' s' s'') (hs : s.Sound) (hapart : s.Apart (roots ++ roots'))
    (hroots : ∀ i ∈ roots', i < s.lines.size) : Visits (s.Under (roots ++ roots')) (ids ++ ids') s s'' := by
  -- the first run has nothing to do with the lines of the second
  have hbefore : ∀ k, s'.Under roots' k → s.Under roots' k := fun k hk =>
    h.adds.under hs hroots (fun j hj hown => hapart.disjoint hs hown hj) hk
  refine (h.mono fun k hk => hk.subset (List.subset_append_left _ _)).trans h' hs
    (fun k hk => .inl ((hbefore k hk).subset (List.subset_append_right _ _))) fun k hk hk' => ?_
  rcases (h.within k hk).1 with hown | hnew
  · exact absurd (hbefore k hk') (hapart.disjoint hs hown)
  · exact absurd ((hbefore k hk').lt hs hroots) (Nat.not_lt_of_le hnew)

/-- A run over a line and then over the lines that it holds. -/
theorem descend (h : Visits (· = id) [id] s s')
    (h' : Visits (s'.Under (s'.held (some id))) ids' s' s'') (hs : s.Sound) :
    Visits (s.Under [id]) (id :: ids') s s'' := by
  have hmem : s.Under [id] id := .of_mem (List.mem_singleton_self id)
  refine (h.mono fun k hk => hk ▸ hmem).trans h' hs (fun k hk => ?_) fun k hk hk' => ?_
  · obtain ⟨i, hi, hbelow⟩ := hk
    rcases h.adds id i hi with hold | ⟨-, hnew⟩
    · refine (h.adds.under_or_new (h.sound hs) ⟨i, List.mem_singleton_self i, hbelow⟩).imp_left fun hunder => ?_
      obtain ⟨j, hj, hbelow'⟩ := hunder
      rw [List.mem_singleton.mp hj] at hbelow'
      exact ⟨id, List.mem_singleton_self id, .head hold hbelow'⟩
    · exact .inr (Nat.le_trans hnew (Below.le hbelow (h.sound hs)))
  · rw [List.mem_singleton.mp hk] at hk'
    exact absurd (hk'.held_lt (h.sound hs)) (Nat.lt_irrefl id)

theorem enterLine (hs : s.Sound) (hr : s.Readied) (hid : id < s.lines.size) :
    Visits (· = id) [id] s (s.enterLine id) := by
  refine .of_serving (.single (.enter id rfl)) (.enter .refl id) hs hr hid fun hmem => .inl ?_
  rw [journal_enterLine] at hmem
  exact (List.mem_cons.mp hmem).resolve_left nofun

theorem of_delivers (h : Delivers id (s.enterLine id) s') (hs : s.Sound) (hr : s.Readied)
    (hid : id < s.lines.size) (hother : ((s.enterLine id).line id).directive? ≠ some .enumeration) :
    Visits (· = id) [id] s s' := by
  have henter := enterLine hs hr hid
  have hsteps : Steps (.serving id) s s' := .head (.enter id rfl) h.steps
  have hkept := h.steps.linesKept (henter.sound hs)
  obtain ⟨t, htended, hcloses⟩ := h
  have hsteady : Steady (s.enterLine id) t := htended.steady (henter.sound hs) fun _ h => h
  have htour : Tour s [id] s' := by
    cases hcloses with
    | idle => exact henter.tour.steady hsteady
    | move cursor => exact (henter.tour.steady hsteady).move cursor
    | emit cells => exact .write .refl hid hsteady cells
  refine .of_serving hsteps htour hs hr hid fun _ => .inr fun part rows hkind hdirective => absurd ?_ hother
  rw [← hkept.directive id (Nat.lt_of_lt_of_le hid henter.steps.size_le), directive_of_kind hkind, hdirective]

theorem of_enumeration {part : Line.CommandPart} (hs : s.Sound) (hr : s.Readied)
    (hid : id < s.lines.size) (hkind : ((s.enterLine id).line id).kind = .command part)
    (hdirective : part.directive = .enumeration) (hread : part.IsRead ∨ (s.enterLine id).Failed) :
    Visits (· = id) [id] s ((s.enterLine id).compileEnumeration id part) := by
  have henter := enterLine hs hr hid
  have hs' := henter.sound hs
  have hid' := Nat.lt_of_lt_of_le hid henter.steps.size_le
  have hsteps : Steps (.serving id) (s.enterLine id) ((s.enterLine id).compileEnumeration id part) :=
    steps_compileEnumeration rfl hs' hid' hkind hdirective
  refine .of_serving (.head (.enter id rfl) hsteps) (henter.tour.steady (.compileEnumeration _ id part)) hs hr hid
    fun _ => .inr ?_
  refine (numbered_compileEnumeration hs' hid' hkind hdirective hread).earlier (hsteps.sound hs') fun _ label hrow => ?_
  rcases (hsteps.later hs').new _ hrow with hold | hnew
  · exact value_row_enterLine hs hold
  · exact (henter.steps.later hs).value_of_size_le hnew

end Visits

end Assembly

end CrossAssembler
