import CrossAssembler.Proofs.Instruction.Matching

/-!
# The width of an operand

* `InstructionSet.forms_graded` — so have the forms gathered from any entries.
* `fits_mono` — what fits into some bytes fits into more.

Principal result: `selects_narrowest` — on every processor a value gets the narrowest encoding that admits it, and
what has been selected can be encoded.
-/

namespace CrossAssembler

open Instruction (Error)

/-! ## Values and widths -/

theorem fits_iff {value : Int} {width : Nat} : fits value width = true ↔
      0 < width ∧ (8 ≤ width ∨ -(2 ^ (8 * width - 1) : Int) ≤ value ∧ value < 2 ^ (8 * width)) := by
  unfold fits
  by_cases hzero : width = 0
  · simp [hzero]
  · by_cases hlarge : 8 ≤ width
    · simp [hzero, hlarge, Nat.pos_of_ne_zero hzero]
    · simp [hzero, hlarge, Nat.pos_of_ne_zero hzero]

theorem fits_mono {value : Int} {width width' : Nat} (hle : width ≤ width') (h : fits value width = true) :
    fits value width' = true := by
  rw [fits_iff] at h ⊢
  obtain ⟨hpos, hrange⟩ := h
  refine ⟨hpos.trans_le hle, hrange.imp (fun hlarge => hlarge.trans hle) fun ⟨hlo, hhi⟩ => ⟨?_, ?_⟩⟩
  · have hhalf : (2 ^ (8 * width - 1) : Int) ≤ 2 ^ (8 * width' - 1) := pow_le_pow_right₀ (by decide) (by omega)
    exact (Int.neg_le_neg hhalf).trans hlo
  · have hfull : (2 ^ (8 * width) : Int) ≤ 2 ^ (8 * width') := pow_le_pow_right₀ (by decide) (by omega)
    exact hhi.trans_le hfull

/-! ## Encodings in order -/

namespace Form

/-- Whether a form has encodings, each wider than the one before. -/
structure Graded (f : Form) : Prop where
  nonempty : f.encodings ≠ []
  rising : f.encodings.Pairwise fun a b => a.width < b.width

/-- Whether a form has encodings, all of different widths. -/
structure Distinct (f : Form) : Prop where
  nonempty : f.encodings ≠ []
  widths : (f.encodings.map Encoding.width).Nodup

end Form

namespace InstructionSet

variable {fs : List Form}

theorem addForm_distinct (pattern : Pattern) (layout : Layout) (e : Encoding)
    (hfs : ∀ f ∈ fs, f.Distinct) : ∀ f ∈ addForm pattern layout e fs, f.Distinct := by
  induction fs with
  | nil =>
    intro f hf
    rw [addForm, List.mem_singleton] at hf
    subst hf
    exact ⟨List.cons_ne_nil _ _, List.nodup_singleton _⟩
  | cons g gs ih =>
    obtain ⟨hg, hgs⟩ := List.forall_mem_cons.mp hfs
    unfold addForm
    split
    · split
      · exact hfs
      rename_i hnew
      refine List.forall_mem_cons.mpr ⟨⟨List.append_ne_nil_of_left_ne_nil hg.nonempty _, ?_⟩, hgs⟩
      rw [List.map_append, List.nodup_append]
      refine ⟨hg.widths, List.nodup_singleton _, fun w hw w' hw' heq => hnew ?_⟩
      obtain ⟨o, ho, rfl⟩ := List.mem_map.mp hw
      rw [List.map_singleton, List.mem_singleton] at hw'
      exact List.any_eq_true.mpr ⟨o, ho, beq_iff_eq.mpr (heq.trans hw')⟩
    · exact List.forall_mem_cons.mpr ⟨hg, ih hgs⟩

/-- Sorting encodings of different widths puts each before the wider ones. -/
theorem arrange_graded (hfs : ∀ f ∈ fs, f.Distinct) : ∀ f ∈ arrange fs, f.Graded := by
  intro f hf
  rw [arrange, List.mem_mergeSort, List.mem_map] at hf
  obtain ⟨g, hg, rfl⟩ := hf
  have hperm := List.mergeSort_perm g.encodings fun a b => decide (a.width ≤ b.width)
  have hsorted : (g.encodings.mergeSort fun a b => decide (a.width ≤ b.width)).Pairwise fun a b => a.width ≤ b.width := by
    refine (List.pairwise_mergeSort (fun a b c hab hbc => ?_) (fun a b => ?_) g.encodings).imp fun hab => ?_
    · exact decide_eq_true ((of_decide_eq_true hab).trans (of_decide_eq_true hbc))
    · simp only [Bool.or_eq_true, decide_eq_true_eq]
      exact Nat.le_total _ _
    · exact of_decide_eq_true hab
  have hwidths := (hperm.map Encoding.width).nodup_iff.mpr (hfs g hg).widths
  have hapart : (g.encodings.mergeSort fun a b => decide (a.width ≤ b.width)).Pairwise
      fun a b => a.width ≠ b.width := List.pairwise_map.mp hwidths
  refine ⟨fun hnil => (hfs g hg).nonempty ?_, (hsorted.and hapart).imp fun hab => Nat.lt_of_le_of_ne hab.1 hab.2⟩
  exact List.eq_nil_of_length_eq_zero (by rw [← hperm.length_eq]; exact congrArg List.length hnil)

theorem forms_graded {entries : List Entry} {m : String}
    (h : (ofEntries entries).forms[m]? = some fs) : ∀ f ∈ fs, f.Graded := by
  obtain ⟨gathered, rfl, hdistinct⟩ := exists_gathered (fun _ _ _ hfs => addForm_distinct _ _ _ hfs) h
  exact arrange_graded hdistinct

end InstructionSet

theorem Platform.forms_graded (platform : Platform) {m : String} {fs : List Form}
    (h : platform.instructions.forms[m]? = some fs) : ∀ f ∈ fs, f.Graded := by
  cases platform <;> exact InstructionSet.forms_graded h

/-! ## Selecting an encoding -/

namespace Form

variable {f : Form} {v : Int64} {least : Nat} {e : Encoding}

theorem find?_eq_some_iff_narrowest {es : List Encoding} (hes : es.Pairwise fun a b => a.width < b.width)
    {p : Encoding → Bool} :
    es.find? p = some e ↔ e ∈ es ∧ p e = true ∧ ∀ o ∈ es, p o = true → e.width ≤ o.width := by
  induction es with
  | nil => simp
  | cons a es ih =>
    obtain ⟨hwider, hrest⟩ := List.pairwise_cons.mp hes
    cases ha : p a with
    | true =>
      rw [List.find?_cons_of_pos ha, Option.some.injEq]
      constructor
      · rintro rfl
        refine ⟨List.mem_cons_self, ha, List.forall_mem_cons.mpr ⟨fun _ => le_rfl, fun o ho _ => ?_⟩⟩
        exact (hwider o ho).le
      · rintro ⟨he, -, hleast⟩
        rcases List.mem_cons.mp he with rfl | he
        · rfl
        · exact absurd (hleast a List.mem_cons_self ha) (Nat.not_le_of_lt (hwider e he))
    | false =>
      rw [List.find?_cons_of_neg (by simp [ha]), ih hrest]
      constructor
      · rintro ⟨he, hp, hleast⟩
        refine ⟨List.mem_cons_of_mem a he, hp, List.forall_mem_cons.mpr ⟨fun hp' => ?_, hleast⟩⟩
        rw [ha] at hp'
        cases hp'
      · rintro ⟨he, hp, hleast⟩
        refine ⟨(List.mem_cons.mp he).resolve_left fun heq => ?_, hp, (List.forall_mem_cons.mp hleast).2⟩
        rw [heq, ha] at hp
        cases hp

theorem Graded.widest_mem (hf : f.Graded) : f.widest ∈ f.encodings := by
  unfold widest
  rw [List.getLast?_eq_some_getLast hf.nonempty]
  exact List.getLast_mem hf.nonempty

theorem Graded.width_le_widest (hf : f.Graded) (he : e ∈ f.encodings) : e.width ≤ f.widest.width := by
  have hsplit := List.dropLast_append_getLast hf.nonempty
  have hrising := hf.rising
  rw [← hsplit, List.pairwise_append] at hrising
  unfold widest
  rw [List.getLast?_eq_some_getLast hf.nonempty]
  rw [← hsplit, List.mem_append, List.mem_singleton] at he
  rcases he with he | rfl
  · exact (hrising.2.2 e he _ (List.mem_singleton_self _)).le
  · exact le_rfl

/-- Whether a value may get an encoding: it is not below the floor, and the value fits into it. -/
structure Admits (f : Form) (v : Int64) (least : Nat) (e : Encoding) : Prop where
  mem : e ∈ f.encodings
  floor : min least f.widest.width ≤ e.width
  fits : fits v.toInt e.width = true

theorem select_of_value (hlayout : f.layout = .value) (v : Int64) (least : Nat) : f.select (some v) none least =
      (f.encodings.find? fun e => min least f.widest.width ≤ e.width && CrossAssembler.fits v.toInt e.width).elim
        (.error (.valueOutOfRange v f.widest.width)) .ok := by
  unfold select
  simp only [hlayout]
  split
  · rename_i e hfound
    rw [hfound]
    rfl
  · rename_i hnone
    rw [hnone]
    rfl

theorem Graded.select_eq_ok_iff (hf : f.Graded) (hlayout : f.layout = .value) :
    f.select (some v) none least = .ok e ↔ f.Admits v least e ∧ ∀ o, f.Admits v least o → e.width ≤ o.width := by
  have hfind := find?_eq_some_iff_narrowest hf.rising (e := e)
    (p := fun e => min least f.widest.width ≤ e.width && CrossAssembler.fits v.toInt e.width)
  simp only [Bool.and_eq_true, decide_eq_true_eq] at hfind
  rw [select_of_value hlayout]
  constructor
  · intro hselect
    cases hfound : f.encodings.find? fun e =>
        min least f.widest.width ≤ e.width && CrossAssembler.fits v.toInt e.width with
    | none =>
      rw [hfound] at hselect
      cases hselect
    | some found =>
      rw [hfound] at hselect
      cases hselect
      obtain ⟨he, ⟨hfloor, hfits⟩, hleast⟩ := hfind.mp hfound
      exact ⟨⟨he, hfloor, hfits⟩, fun o ho => hleast o ho.mem ⟨ho.floor, ho.fits⟩⟩
  · rintro ⟨he, hleast⟩
    rw [hfind.mpr ⟨he.mem, ⟨he.floor, he.fits⟩, fun o ho hall => hleast o ⟨ho, hall.1, hall.2⟩⟩]
    rfl

/-- The widest encoding is never below the floor, so only the value decides whether there is an encoding. -/
theorem Graded.exists_select_iff (hf : f.Graded) (hlayout : f.layout = .value) :
    (∃ e, f.select (some v) none least = .ok e) ↔ CrossAssembler.fits v.toInt f.widest.width = true := by
  constructor
  · rintro ⟨e, he⟩
    have hadmits := ((hf.select_eq_ok_iff hlayout).mp he).1
    exact fits_mono (hf.width_le_widest hadmits.mem) hadmits.fits
  intro hfits
  rw [select_of_value hlayout]
  cases hfound : f.encodings.find? fun e =>
      min least f.widest.width ≤ e.width && CrossAssembler.fits v.toInt e.width with
  | some e => exact ⟨e, rfl⟩
  | none =>
    have hrefused := List.find?_eq_none.mp hfound f.widest hf.widest_mem
    simp [hfits] at hrefused

/-- A higher floor admits less, so the narrowest of what it admits is not narrower. -/
theorem Graded.select_mono (hf : f.Graded) (hlayout : f.layout = .value) {least' : Nat} {e' : Encoding}
    (hle : least ≤ least') (h : f.select (some v) none least = .ok e)
    (h' : f.select (some v) none least' = .ok e') : e.width ≤ e'.width := by
  have hadmits := ((hf.select_eq_ok_iff hlayout).mp h').1
  refine ((hf.select_eq_ok_iff hlayout).mp h).2 e' ⟨hadmits.mem, ?_, hadmits.fits⟩
  exact (min_le_min_right _ hle).trans hadmits.floor

theorem select_forced_eq_ok_iff (value : Option Int64) (width : Nat) :
    f.select value (some width) least = .ok e ↔ (f.encodings.find? fun e => e.width == width) = some e := by
  unfold select
  simp only
  split
  · rename_i found hfound
    rw [hfound, Except.ok.injEq, Option.some.injEq]
  · rename_i hnone
    rw [hnone]
    exact ⟨nofun, nofun⟩

theorem encode_of_value (hlayout : f.layout = .value) (e : Encoding) (v : Int64) (rest : List Int64) (pc : Int64) :
    f.encode e (v :: rest) pc =
      if CrossAssembler.fits v.toInt e.width then .ok (e.opcode ++ littleEndian e.width v.toInt)
      else .error (.valueOutOfRange v e.width) := by
  unfold encode
  rw [hlayout]
  rfl

/-- Whether a form gives every operand the narrowest encoding it may have, and can encode what it selects. -/
structure Selective (f : Form) : Prop where
  /-- The widest encoding is one of the form, and no other is wider. -/
  widest : f.widest ∈ f.encodings ∧ ∀ e ∈ f.encodings, e.width ≤ f.widest.width
  succeeds : ∀ v least,
    (∃ e, f.select (some v) none least = .ok e) ↔ CrossAssembler.fits v.toInt f.widest.width = true
  narrowest : ∀ v least e, f.select (some v) none least = .ok e ↔
    f.Admits v least e ∧ ∀ o, f.Admits v least o → e.width ≤ o.width
  encodes : ∀ v least e, f.select (some v) none least = .ok e →
    ∀ rest pc, ∃ bytes, f.encode e (v :: rest) pc = .ok bytes
  /-- An operand whose value is not known gets the widest encoding. -/
  unknown : ∀ least, f.select none none least = .ok f.widest
  monotone : ∀ value least least' e e', least ≤ least' → f.select value none least = .ok e →
    f.select value none least' = .ok e' → e.width ≤ e'.width
  forced : ∀ value width least, (∃ e, f.select value (some width) least = .ok e) ↔ ∃ e ∈ f.encodings, e.width = width
  /-- A forced width is taken whatever the value, which may then not fit. -/
  forcedEncodes : ∀ value width least e, f.select value (some width) least = .ok e →
    (e ∈ f.encodings ∧ e.width = width) ∧ ∀ v rest pc,
      (∃ error, f.encode e (v :: rest) pc = .error error) ↔ CrossAssembler.fits v.toInt width = false

end Form

/-- **Operands get the narrowest width they may have.** This holds of every form of every processor that stores a
value, and nothing that has been selected for a value fails to be encoded. -/
theorem selects_narrowest (platform : Platform) {m : String} {fs : List Form} {f : Form}
    (hforms : platform.instructions.forms[m]? = some fs) (hf : f ∈ fs) (hlayout : f.layout = .value) :
    f.Selective := by
  have hgraded := platform.forms_graded hforms f hf
  have hunknown : ∀ least, f.select none none least = .ok f.widest := by
    intro least
    unfold Form.select
    simp only [hlayout]
  refine
    { widest := ⟨hgraded.widest_mem, fun _ he => hgraded.width_le_widest he⟩
      succeeds := fun v least => hgraded.exists_select_iff hlayout
      narrowest := fun v least e => hgraded.select_eq_ok_iff hlayout
      encodes := fun v least e he rest pc => ?_
      unknown := hunknown
      monotone := fun value least least' e e' hle he he' => ?_
      forced := fun value width least => ?_
      forcedEncodes := fun value width least e he => ?_ }
  · rw [Form.encode_of_value hlayout, if_pos ((hgraded.select_eq_ok_iff hlayout).mp he).1.fits]
    exact ⟨_, rfl⟩
  · cases value with
    | none =>
      rw [hunknown, Except.ok.injEq] at he he'
      rw [← he, ← he']
    | some v => exact hgraded.select_mono hlayout hle he he'
  · simp only [Form.select_forced_eq_ok_iff]
    rw [← Option.isSome_iff_exists, List.find?_isSome]
    simp only [beq_iff_eq]
  · have hfound := (Form.select_forced_eq_ok_iff value width).mp he
    have hwidth : e.width = width := by simpa using List.find?_some hfound
    refine ⟨⟨List.mem_of_find?_eq_some hfound, hwidth⟩, fun v rest pc => ?_⟩
    rw [Form.encode_of_value hlayout, hwidth]
    cases CrossAssembler.fits v.toInt width <;> simp

set_option maxRecDepth 100000 in
/-- A load has encodings of three widths. A small value with a floor of two bytes gets the second. -/
theorem selects_narrowest_lda : let f : Form := ⟨.ofText "[exp]", .value, [⟨1, [0xA5]⟩, ⟨2, [0xAD]⟩, ⟨3, [0xAF]⟩]⟩
    (∃ fs, Platform.w65816.instructions.forms["lda"]? = some fs ∧ f ∈ fs) ∧ f.Selective ∧
      f.select (some 0x12) none 2 = .ok ⟨2, [0xAD]⟩ ∧ f.encode ⟨2, [0xAD]⟩ [0x12] 0 = .ok [0xAD, 0x12, 0x00] := by
  intro f
  have hlisted : ((InstructionSet.gather Platform.w65816.entries)["lda"]?).any (fun fs => fs.contains f) = true := by
    decide +kernel
  obtain ⟨hsome, hcontains⟩ := (Option.any_eq_true_iff_get _ _).mp hlisted
  set gathered := (InstructionSet.gather Platform.w65816.entries)["lda"]?.get hsome
  have hget : (InstructionSet.gather Platform.w65816.entries)["lda"]? = some gathered := (Option.some_get hsome).symm
  have hforms : Platform.w65816.instructions.forms["lda"]? = some (InstructionSet.arrange gathered) := by
    change (InstructionSet.ofEntries Platform.w65816.entries).forms["lda"]? = _
    rw [InstructionSet.ofEntries_eq, Std.TreeMap.getElem?_map, hget]
    rfl
  have hf : f ∈ InstructionSet.arrange gathered := by
    rw [InstructionSet.arrange, List.mem_mergeSort, List.mem_map]
    refine ⟨f, List.elem_iff.mp hcontains, ?_⟩
    rw [List.mergeSort_of_pairwise (by decide)]
  exact ⟨⟨_, hforms, hf⟩, selects_narrowest .w65816 hforms hf rfl, by decide +kernel, by decide +kernel⟩

end CrossAssembler
