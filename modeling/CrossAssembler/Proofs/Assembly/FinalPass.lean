import CrossAssembler.Proofs.Assembly.Passes
import CrossAssembler.Proofs.Image

/-!
# The image is the final pass

Only lines that are reached write, each at most once, and what is recorded of them stays until the pass
ends. So the image can be read off the records: a byte is that of the last line that covers its offset.

Principal results: `Tour.faithful` — a tour that visits no line twice stays faithful;
`image_of_final_pass` — work without an error ends with the image of its final pass.
-/

namespace CrossAssembler

/-! ## Bytes at an offset -/

namespace Line

variable {l : Line}

/-- Whether the bytes that are recorded of a line cover an offset. -/
def Covers (l : Line) (p : Nat) : Prop := l.base.toInt ≤ p ∧ p < l.base.toInt + l.bytes.length

instance (l : Line) (p : Nat) : Decidable (l.Covers p) := inferInstanceAs (Decidable (_ ∧ _))

/-- The byte that is recorded of a line for an offset, if the line covers it and the byte is known. -/
def byteAt? (l : Line) (p : Nat) : Option UInt8 :=
  if l.base.toInt ≤ p then (l.bytes[((p : Int) - l.base.toInt).toNat]?).join else none

theorem byteAt_congr {l' : Line} (hbase : l'.base = l.base) (hbytes : l'.bytes = l.bytes) :
    l'.byteAt? = l.byteAt? := by
  funext p
  rw [byteAt?, byteAt?, hbase, hbytes]

theorem byteAt_of_not_covers {p : Nat} (h : ¬ l.Covers p) : l.byteAt? p = none := by
  unfold byteAt?
  split
  · rename_i hle
    have hge : l.bytes.length ≤ ((p : Int) - l.base.toInt).toNat := by
      unfold Covers at h
      omega
    rw [List.getElem?_eq_none hge]
    rfl
  · rfl

theorem byteAt_of_covers {p : Nat} (h : l.Covers p) (hknown : none ∉ l.bytes) : ∃ b, l.byteAt? p = some b := by
  have hlt : ((p : Int) - l.base.toInt).toNat < l.bytes.length := by
    unfold Covers at h
    omega
  rw [byteAt?, if_pos h.1, List.getElem?_eq_getElem hlt]
  cases hcell : l.bytes[((p : Int) - l.base.toInt).toNat] with
  | none => exact absurd (hcell ▸ List.getElem_mem hlt) hknown
  | some b => exact ⟨b, rfl⟩

end Line

namespace Assembly

variable {s s' : Assembly} {ids : List LineId}
variable {id : LineId}

/-- The last line of the running pass whose bytes cover an offset. -/
def lastWriter? (s : Assembly) (p : Nat) : Option LineId :=
  (s.written.reverse.find? fun w => (s.line w.1).Covers p).map fun w => w.1

/-! ## Records -/

/-- Whether the lines that have written are among those that were visited and are recorded as they have
written, and the image holds what is recorded. -/
structure Faithful (ids : List LineId) (s : Assembly) : Prop where
  reached : s.reached.Sublist ids
  written : (s.written.map fun w => w.1).Sublist s.reached
  made : ∀ w ∈ s.written, w.1 < s.lines.size
  bytes : ∀ w ∈ s.written, (s.line w.1).bytes = w.2
  image : ¬ s.Failed → ∀ p, s.image.get? p = s.written.reverse.findSome? fun w => (s.line w.1).byteAt? p

theorem findSome_congr {α β : Type} {f g : α → Option β} : ∀ {l : List α}, (∀ x ∈ l, f x = g x) →
    l.findSome? f = l.findSome? g
  | [], _ => rfl
  | x :: l, h => by
    obtain ⟨hx, hl⟩ := List.forall_mem_cons.mp h
    rw [List.findSome?_cons, List.findSome?_cons, hx, findSome_congr hl]

theorem Faithful.mem (h : Faithful ids s) {w : LineId × List Cell} (hw : w ∈ s.written) : w.1 ∈ ids :=
  h.reached.subset (h.written.subset (List.mem_map_of_mem hw))

theorem Faithful.keep {ids' : List LineId} (h : Faithful ids s) (hreached : s'.reached.Sublist ids')
    (hlater : s.reached.Sublist s'.reached) (hwritten : s'.written = s.written) (himage : s'.image = s.image)
    (hsize : s.lines.size ≤ s'.lines.size) (hfailed : s.Failed → s'.Failed)
    (hbase : ∀ w ∈ s.written, (s'.line w.1).base = (s.line w.1).base)
    (hbytes : ∀ w ∈ s.written, (s'.line w.1).bytes = (s.line w.1).bytes) : Faithful ids' s' where
  reached := hreached
  written := by
    rw [hwritten]
    exact h.written.trans hlater
  made w hw := Nat.lt_of_lt_of_le (h.made w (hwritten ▸ hw)) hsize
  bytes w hw := by
    rw [hwritten] at hw
    exact (hbytes w hw).trans (h.bytes w hw)
  image hnot p := by
    rw [himage, hwritten, h.image (fun hf => hnot (hfailed hf)) p]
    refine findSome_congr fun w hw => ?_
    rw [List.mem_reverse] at hw
    rw [Line.byteAt_congr (hbase w hw) (hbytes w hw)]

theorem Faithful.steady (h : Faithful ids s) (h' : Steady s s') : Faithful ids s' :=
  h.keep (h'.reached ▸ h.reached) (h'.reached ▸ .refl _) h'.written h'.image h'.size h'.failed
    (fun w hw => h'.base w.1 (h.made w hw)) fun w hw => h'.bytes w.1 (h.made w hw)

theorem line_beginLine_ne {j : LineId} (h : j ≠ id) : (s.beginLine id).line j = s.line j := by
  unfold beginLine
  rw [line_modifyLine, if_neg fun hj => h hj.1]

theorem Faithful.beginLine (h : Faithful ids s) (hid : id ∉ ids) : Faithful (ids ++ [id]) (s.beginLine id) := by
  have hline : ∀ w ∈ s.written, (s.beginLine id).line w.1 = s.line w.1 := fun w hw =>
    line_beginLine_ne fun heq => hid (heq ▸ h.mem hw)
  refine h.keep (h.reached.trans (List.sublist_append_left _ _)) (.refl _) rfl rfl
    (Nat.le_of_eq (size_modifyLine s id _).symm) (fun hf => hf) (fun w hw => ?_) fun w hw => ?_
  · rw [hline w hw]
  · rw [hline w hw]

theorem steady_enterLine (s : Assembly) (id : LineId) :
    Steady ((s.beginLine id).note (.entered id ((s.beginLine id).line id).labelId)) (s.enterLine id) := by
  unfold enterLine
  simp only
  split
  · exact .setLabelValue _ _ _
  · exact .refl _

theorem reached_enterLine (s : Assembly) (id : LineId) : (s.enterLine id).reached = s.reached ++ [id] :=
  (steady_enterLine s id).reached.trans
    (reached_cons (s := s.beginLine id) (.entered id ((s.beginLine id).line id).labelId) rfl)

theorem written_enterLine (s : Assembly) (id : LineId) : (s.enterLine id).written = s.written := by
  refine (steady_enterLine s id).written.trans ?_
  rw [written_cons (s := s.beginLine id) (.entered id ((s.beginLine id).line id).labelId) rfl]
  exact List.append_nil _

theorem Faithful.enterLine (h : Faithful ids s) (hid : id ∉ ids) : Faithful (ids ++ [id]) (s.enterLine id) := by
  refine Faithful.steady ?_ (steady_enterLine s id)
  have hreached : ((s.beginLine id).note (.entered id ((s.beginLine id).line id).labelId)).reached =
      s.reached ++ [id] := reached_cons (s := s.beginLine id) (.entered id _) rfl
  refine (h.beginLine hid).keep ?_ ?_ ?_ rfl (Nat.le_refl _) (fun hf => hf) (fun _ _ => rfl) fun _ _ => rfl
  · rw [hreached]
    exact h.reached.append (.refl _)
  · rw [hreached]
    exact List.sublist_append_left s.reached [id]
  · rw [written_cons (s := s.beginLine id) (.entered id _) rfl]
    exact List.append_nil _

theorem base_enterLine (hid : id < s.lines.size) :
    ((s.enterLine id).line id).base = (s.enterLine id).cursor.base := by
  have hsteady := steady_enterLine s id
  rw [hsteady.base id (Nat.lt_of_lt_of_eq hid (size_modifyLine s id _).symm), hsteady.cursor]
  have hline : ((s.beginLine id).line id).base = s.cursor.base := by
    unfold Assembly.beginLine
    rw [line_modifyLine, if_pos ⟨rfl, hid⟩]
  exact hline

/-! ## Writing -/

theorem reached_emit (s : Assembly) (id : LineId) (cells : List Cell) : (s.emit id cells).reached = s.reached := by
  have hjournal : (s.emit id cells).journal = .emitted id cells :: s.journal := by
    unfold emit
    cases s.image.write s.cursor.base cells <;> rfl
  rw [reached_cons _ hjournal]
  exact List.append_nil _

theorem written_emit (s : Assembly) (id : LineId) (cells : List Cell) :
    (s.emit id cells).written = s.written ++ [(id, cells)] := by
  have hjournal : (s.emit id cells).journal = .emitted id cells :: s.journal := by
    unfold emit
    cases s.image.write s.cursor.base cells <;> rfl
  exact written_cons _ hjournal

theorem record_emit (s : Assembly) (hid : id < s.lines.size) (cells : List Cell) :
    ((s.emit id cells).line id).base = (s.line id).base ∧ ((s.emit id cells).line id).bytes = cells := by
  have hfail := fun message => (Steady.fail s id (s.line id).origin.span message).base id hid
  have hsize := fun message => (writes_fail s id (s.line id).origin.span message).size
  unfold emit
  cases s.image.write s.cursor.base cells with
  | ok image =>
    simp only
    rw [line_modifyLine, if_pos ⟨rfl, hid⟩]
    exact ⟨rfl, rfl⟩
  | error e =>
    simp only
    rw [line_modifyLine, if_pos ⟨rfl, hsize e.message ▸ hid⟩]
    exact ⟨hfail e.message, rfl⟩

theorem record_emit_ne (s : Assembly) {j : LineId} (h : j ≠ id) (hj : j < s.lines.size) (cells : List Cell) :
    ((s.emit id cells).line j).base = (s.line j).base ∧ ((s.emit id cells).line j).bytes = (s.line j).bytes := by
  have hfail := fun message => Steady.fail s id (s.line id).origin.span message
  unfold emit
  cases s.image.write s.cursor.base cells with
  | ok image =>
    simp only
    rw [line_modifyLine, if_neg fun hj => h hj.1]
    exact ⟨rfl, rfl⟩
  | error e =>
    simp only
    rw [line_modifyLine, if_neg fun hj => h hj.1]
    exact ⟨(hfail e.message).base j hj, (hfail e.message).bytes j hj⟩

theorem image_emit {cells : List Cell} (h : ¬ (s.emit id cells).Failed) :
    ¬ s.Failed ∧ s.image.write s.cursor.base cells = .ok (s.emit id cells).image := by
  unfold emit at h ⊢
  cases hwrite : s.image.write s.cursor.base cells with
  | ok image =>
    rw [hwrite] at h
    exact ⟨fun hf => h hf, rfl⟩
  | error e =>
    rw [hwrite] at h
    exact absurd (failed_fail s id (s.line id).origin.span e.message) h

theorem Faithful.emit (h : Faithful ids s) (hid : id < s.lines.size)
    (hfresh : ∀ w ∈ s.written, w.1 ≠ id) (hbase : (s.line id).base = s.cursor.base)
    (hwritten : ((s.written.map fun w => w.1) ++ [id]).Sublist s.reached) (cells : List Cell) :
    Faithful ids (s.emit id cells) := by
  have hothers : ∀ w ∈ s.written, ((s.emit id cells).line w.1).base = (s.line w.1).base ∧
      ((s.emit id cells).line w.1).bytes = (s.line w.1).bytes := fun w hw =>
    record_emit_ne s (hfresh w hw) (h.made w hw) cells
  have hown := record_emit s hid cells
  refine ⟨?_, ?_, fun w hw => ?_, fun w hw => ?_, fun hnot p => ?_⟩
  · rw [reached_emit]
    exact h.reached
  · rw [reached_emit, written_emit, List.map_append]
    exact hwritten
  · rw [(writes_emit s id cells).size]
    rw [written_emit] at hw
    rcases List.mem_append.mp hw with hw | hw
    · exact h.made w hw
    · rw [List.mem_singleton.mp hw]
      exact hid
  · rw [written_emit] at hw
    rcases List.mem_append.mp hw with hw | hw
    · exact (hothers w hw).2.trans (h.bytes w hw)
    · rw [List.mem_singleton.mp hw]
      exact hown.2
  · obtain ⟨hnot', hwrite⟩ := image_emit hnot
    have hrest : s.written.reverse.findSome? (fun w => ((s.emit id cells).line w.1).byteAt? p) = s.image.get? p := by
      rw [h.image hnot' p]
      refine findSome_congr fun w hw => ?_
      rw [List.mem_reverse] at hw
      rw [Line.byteAt_congr (hothers w hw).1 (hothers w hw).2]
    rw [written_emit, List.reverse_append, List.reverse_singleton, List.singleton_append, List.findSome?_cons,
      hrest, Image.get?_write hwrite p, Line.byteAt?, hown.1, hown.2, hbase]
    cases (if s.cursor.base.toInt ≤ p then (cells[((p : Int) - s.cursor.base.toInt).toNat]?).join else none) <;> rfl

theorem nodup_concat (h : (ids ++ [id]).Nodup) : ids.Nodup ∧ id ∉ ids := by
  obtain ⟨hbefore, -, hdisjoint⟩ := List.nodup_append.mp h
  exact ⟨hbefore, fun hid => hdisjoint id hid id (List.mem_singleton_self id) rfl⟩

/-- **A tour stays faithful.** If no line is visited twice, the records of the lines that have written say
what the image holds. -/
theorem Tour.faithful (h : Tour s ids s') (hnodup : ids.Nodup) (hs : Faithful [] s) : Faithful ids s' := by
  induction h with
  | refl => exact hs
  | steady _ h' ih => exact (ih hnodup).steady h'
  | move _ cursor ih =>
    have hbefore := ih hnodup
    exact ⟨hbefore.reached, hbefore.written, hbefore.made, hbefore.bytes, hbefore.image⟩
  | begin _ id ih =>
    obtain ⟨hbefore, hid⟩ := nodup_concat hnodup
    exact (ih hbefore).beginLine hid
  | enter _ id ih =>
    obtain ⟨hbefore, hid⟩ := nodup_concat hnodup
    exact (ih hbefore).enterLine hid
  | @write ids t t' id _ hid h' cells ih =>
    obtain ⟨hbefore, hnew⟩ := nodup_concat hnodup
    have hbegun := ih hbefore
    have hwritten : t'.written = t.written := h'.written.trans (written_enterLine t id)
    have hreached : t'.reached = t.reached ++ [id] := h'.reached.trans (reached_enterLine t id)
    have hid' : id < (t.enterLine id).lines.size := (writes_enterLine t id).size ▸ hid
    refine ((hbegun.enterLine hnew).steady h').emit (Nat.lt_of_lt_of_le hid' h'.size) (fun w hw heq => ?_) ?_ ?_ cells
    · exact hnew (heq ▸ hbegun.mem (hwritten ▸ hw))
    · rw [h'.base id hid', h'.cursor, base_enterLine hid]
    · rw [hwritten, hreached]
      exact hbegun.written.append (.refl _)

/-! ## Work that ends without an error -/

theorem faithful_beginPass (s : Assembly) (index : Nat) (last : Bool) : Faithful [] (s.beginPass index last) where
  reached := .refl _
  written := .refl _
  made := nofun
  bytes := nofun
  image _ _ := rfl

theorem emitted_of_mem_written {w : LineId × List Cell} (h : w ∈ s.written) : .emitted w.1 w.2 ∈ s.journal := by
  obtain ⟨event, hevent, hw⟩ := List.mem_filterMap.mp h
  cases event with
  | emitted id cells =>
    cases hw
    exact List.mem_reverse.mp hevent
  | entered | evaluated | numbered => cases hw

/-- The first of some candidates that has a value, where exactly those with a property have one. -/
theorem findSome_eq_bind {α β : Type} {P : α → Prop} [DecidablePred P] {f : α → Option β} :
    ∀ {l : List α}, (∀ x ∈ l, P x → ∃ b, f x = some b) → (∀ x ∈ l, ¬ P x → f x = none) →
      l.findSome? f = (l.find? fun x => P x).bind f
  | [], _, _ => rfl
  | x :: l, hsome, hnone => by
    obtain ⟨hx, hl⟩ := List.forall_mem_cons.mp hsome
    obtain ⟨hx', hl'⟩ := List.forall_mem_cons.mp hnone
    by_cases hP : P x
    · obtain ⟨b, hb⟩ := hx hP
      rw [List.findSome?_cons, List.find?_cons_of_pos (by simpa using hP), hb]
      exact hb.symm
    · rw [List.findSome?_cons, List.find?_cons_of_neg (by simpa using hP), hx' hP]
      exact findSome_eq_bind hl hl'

/-- The image of a faithful final pass without an error is that of the last lines that cover its offsets. -/
theorem Faithful.get?_image (h : Faithful ids s) (hs : s.Sound) (hfinal : s.pass.isFinal = true)
    (hpassed : ¬ s.Failed) (p : Nat) :
    match s.lastWriter? p with
    | some id => ∃ b, (s.line id).byteAt? p = some b ∧ s.image.get? p = some b
    | none => s.image.get? p = none := by
  have hknown : ∀ w ∈ s.written.reverse, (s.line w.1).Covers p → ∃ b, (s.line w.1).byteAt? p = some b := by
    intro w hw hcovers
    rw [List.mem_reverse] at hw
    refine Line.byteAt_of_covers hcovers fun hnone => hpassed ?_
    rw [h.bytes w hw] at hnone
    exact hs.emitted w.1 w.2 (emitted_of_mem_written hw) hnone hfinal
  have himage := h.image hpassed p
  rw [findSome_eq_bind hknown fun w _ => Line.byteAt_of_not_covers] at himage
  unfold lastWriter?
  cases hfound : s.written.reverse.find? fun w => (s.line w.1).Covers p with
  | none => exact himage.trans (congrArg (Option.bind · _) hfound)
  | some w =>
    have hcovers : (s.line w.1).Covers p := by simpa using List.find?_some hfound
    obtain ⟨b, hb⟩ := hknown w (List.mem_of_find?_eq_some hfound) hcovers
    refine ⟨b, hb, himage.trans ?_⟩
    rw [hfound]
    exact hb

theorem Concluded.faithful (h : Concluded s) : ∃ ids : List LineId, ids.Nodup ∧ Faithful ids s := by
  obtain ⟨t, index, u, ids, hprepared, hvisits, rfl⟩ := h
  have hfaithful := hvisits.tour.faithful hvisits.nodup (faithful_beginPass t index true)
  refine ⟨ids, hvisits.nodup, ?_⟩
  split
  · exact hfaithful.steady (.report u _)
  · exact hfaithful

/-- **The image is the final pass.** If the work is not told to stop and reports no error, it has ended with
a final pass in which every line was compiled at most once. Lines that have written are recorded as they have
written in that pass, and at every offset the image holds the byte of the last of them that covers it, and
nothing if none does. -/
theorem image_of_final_pass (settings : Settings) (files : Files) (inputs : List (Path × String))
    (hrunning : (compileAll settings files inputs).stopped = false)
    (hpassed : (compileAll settings files inputs).diagnostics.hasErrors = false) :
    let s := compileAll settings files inputs
    s.pass.isFinal = true ∧ s.reached.Nodup ∧ (s.written.map fun w => w.1).Sublist s.reached ∧
      (∀ w ∈ s.written, (s.line w.1).bytes = w.2) ∧
      ∀ p, match s.lastWriter? p with
        | some id => ∃ b, (s.line id).byteAt? p = some b ∧ s.image.get? p = some b
        | none => s.image.get? p = none := by
  have hconcluded := (concluded_compileAll settings files inputs).resolve_left (by rw [hrunning]; nofun)
  generalize compileAll settings files inputs = s at hpassed hconcluded ⊢
  have hnot : ¬ s.Failed := by
    unfold Failed
    rw [hpassed]
    nofun
  obtain ⟨hsound, hfinal⟩ := hconcluded.sound
  obtain ⟨ids, hnodup, hfaithful⟩ := hconcluded.faithful
  exact ⟨hfinal, hnodup.sublist hfaithful.reached, hfaithful.written, hfaithful.bytes,
    hfaithful.get?_image hsound hfinal hnot⟩

/-- A line that writes over the copies of a macro in a repetition. -/
def overlappingInputs : List (Path × String) :=
  [("main.asm", ".MACRO two\n.DB 1, later\n.ENDM\n.REPEAT 2\ntwo\n.ENDR\n.BASE 1\nlater: .DB 9, 8\n")]

theorem image_of_overlappingInputs : let s := compileAll {} (fun _ => .missing) overlappingInputs
    (s.stopped = false ∧ s.diagnostics.hasErrors = false ∧ s.image.toSigned = [1, 9, 8, 4]) ∧
      s.pass.isFinal = true ∧ s.reached.Nodup ∧ (s.written.map fun w => w.1).Sublist s.reached ∧
      (∀ w ∈ s.written, (s.line w.1).bytes = w.2) ∧
      ∀ p, match s.lastWriter? p with
        | some id => ∃ b, (s.line id).byteAt? p = some b ∧ s.image.get? p = some b
        | none => s.image.get? p = none := by
  have hclean : (compileAll {} (fun _ => .missing) overlappingInputs).stopped = false ∧
      (compileAll {} (fun _ => .missing) overlappingInputs).diagnostics.hasErrors = false ∧
      (compileAll {} (fun _ => .missing) overlappingInputs).image.toSigned = [1, 9, 8, 4] := by decide +kernel
  exact ⟨hclean, image_of_final_pass {} (fun _ => .missing) overlappingInputs hclean.1 hclean.2.1⟩

end Assembly

end CrossAssembler
