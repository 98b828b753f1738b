import CrossAssembler.Instruction.Catalogue
import CrossAssembler.Proofs.Instruction.ReadBack

/-!
# The instruction tables lose no operand

* `forms_sound` — the forms gathered from sound entries are sound.

Principal result: `encode_lossless` — on every processor an instruction has the promised length, and
its operands can be read back from its bytes.
-/

namespace CrossAssembler

/-- Whether an entry has the placeholders its layout needs and an encoding that suits it. -/
def Entry.Sound (entry : Entry) : Prop :=
  (Pattern.ofText entry.pattern).placeholders = entry.layout.placeholders ∧
    Encoding.Suits ⟨entry.width, entry.opcode⟩ entry.layout

instance (entry : Entry) : Decidable entry.Sound :=
  inferInstanceAs (Decidable (_ ∧ _))

/-- Whether a form has the placeholders its layout needs and only encodings that suit it. -/
structure Form.Sound (f : Form) : Prop where
  placeholders : f.pattern.placeholders = f.layout.placeholders
  suits : ∀ e ∈ f.encodings, e.Suits f.layout

namespace InstructionSet

variable {fs : List Form}

/-! ## From entries to forms -/

theorem addForm_sound {pattern : Pattern} {layout : Layout} {e : Encoding}
    (hpattern : pattern.placeholders = layout.placeholders) (he : e.Suits layout) :
    ∀ {fs : List Form}, (∀ f ∈ fs, f.Sound) → ∀ f ∈ addForm pattern layout e fs, f.Sound
  | [], _, f, hf => by
    rw [addForm, List.mem_singleton] at hf
    subst hf
    refine ⟨hpattern, fun e' he' => ?_⟩
    rw [List.mem_singleton.mp he']
    exact he
  | g :: gs, hfs, f, hf => by
    obtain ⟨hg, hgs⟩ := List.forall_mem_cons.mp hfs
    unfold addForm at hf
    split at hf
    · rename_i hsame
      split at hf
      · exact hfs f hf
      rcases List.mem_cons.mp hf with rfl | hf
      · refine ⟨hg.placeholders, fun e' he' => ?_⟩
        rcases List.mem_append.mp he' with he' | he'
        · exact hg.suits e' he'
        · rw [List.mem_singleton.mp he']
          exact hsame.2 ▸ he
      · exact hgs f hf
    · rcases List.mem_cons.mp hf with rfl | hf
      · exact hg
      · exact addForm_sound hpattern he hgs f hf

theorem arrange_sound (hfs : ∀ f ∈ fs, f.Sound) : ∀ f ∈ arrange fs, f.Sound := by
  intro f hf
  rw [arrange, List.mem_mergeSort, List.mem_map] at hf
  obtain ⟨g, hg, rfl⟩ := hf
  refine ⟨(hfs g hg).placeholders, fun e he => ?_⟩
  exact (hfs g hg).suits e (List.mem_mergeSort.mp he)

/-- What holds of the forms gathered so far, and still does with one more entry, holds of all forms before they
are arranged. -/
theorem exists_gathered {P : Form → Prop} {entries : List Entry}
    (hadd : ∀ entry ∈ entries, ∀ fs : List Form, (∀ f ∈ fs, P f) →
      ∀ f ∈ addForm (Pattern.ofText entry.pattern) entry.layout ⟨entry.width, entry.opcode⟩ fs, P f)
    {m : String} (h : (ofEntries entries).forms[m]? = some fs) :
    ∃ gathered, fs = arrange gathered ∧ ∀ f ∈ gathered, P f := by
  have hgathered := List.foldlRecOn entries (fun (table : Std.TreeMap String (List Form)) entry =>
      table.insert entry.mnemonic (addForm (Pattern.ofText entry.pattern) entry.layout
        ⟨entry.width, entry.opcode⟩ (table.getD entry.mnemonic [])))
    (motive := fun table => ∀ m, ∀ f ∈ table.getD m [], P f)
    (b := ∅) (by simp) fun table htable entry hentry m f hf => by
      rw [Std.TreeMap.getD_insert] at hf
      split at hf
      · exact hadd entry hentry _ (htable entry.mnemonic) f hf
      · exact htable m f hf
  rw [ofEntries, Std.TreeMap.getElem?_map, Option.map_eq_some_iff] at h
  obtain ⟨gathered, hget, rfl⟩ := h
  refine ⟨gathered, rfl, fun f hf => hgathered m f ?_⟩
  rw [Std.TreeMap.getD_eq_getD_getElem?, hget]
  exact hf

theorem forms_sound {entries : List Entry} (hentries : ∀ entry ∈ entries, entry.Sound)
    {m : String} (h : (ofEntries entries).forms[m]? = some fs) :
    ∀ f ∈ fs, f.Sound := by
  obtain ⟨gathered, rfl, hsound⟩ := exists_gathered
    (fun entry hentry _ hfs => addForm_sound (hentries entry hentry).1 (hentries entry hentry).2 hfs) h
  exact arrange_sound hsound

end InstructionSet

/-! ## The tables -/

namespace Table65816

theorem entriesOf_sound (wideImmediates : Bool) (opcode : UInt8) (mnemonic : String) (mode : Mode) :
    ∀ entry ∈ entriesOf wideImmediates opcode mnemonic mode, entry.Sound := by
  have hpattern : ∀ operand ∈ mode.operands wideImmediates,
      (Pattern.ofText operand.1).placeholders = operand.2.1.placeholders := by
    cases wideImmediates <;> cases mode <;> decide +kernel
  have hsuits : ∀ operand ∈ mode.operands wideImmediates, Encoding.Suits ⟨operand.2.2, [opcode]⟩ operand.2.1 := by
    cases wideImmediates <;> cases mode <;> simp [Mode.operands, Encoding.Suits]
  intro entry hentry
  obtain ⟨operand, hoperand, rfl⟩ := List.mem_map.mp hentry
  exact ⟨hpattern operand hoperand, hsuits operand hoperand⟩

theorem flatMap_entriesOf_sound (wideImmediates : Bool) (ops : List (UInt8 × String × Mode)) :
    ∀ entry ∈ ops.flatMap (fun (opcode, mnemonic, mode) =>
      entriesOf wideImmediates opcode mnemonic mode), entry.Sound := by
  intro entry hentry
  obtain ⟨op, -, hentry⟩ := List.mem_flatMap.mp hentry
  exact entriesOf_sound _ _ _ _ entry hentry

theorem entries65816_sound : ∀ entry ∈ entries65816, entry.Sound :=
  List.forall_mem_append.mpr ⟨flatMap_entriesOf_sound true _, by decide +kernel⟩

theorem entries6502_sound : ∀ entry ∈ entries6502, entry.Sound :=
  List.forall_mem_append.mpr ⟨flatMap_entriesOf_sound false _, by decide +kernel⟩

end Table65816

-- The entries of the next two tables are made by concatenating texts, so each one is looked at.

set_option maxRecDepth 100000 in
theorem TableSm83.entries_sound : ∀ entry ∈ TableSm83.entries, entry.Sound := by
  decide +kernel

set_option maxRecDepth 100000 in
theorem TableSpc700.entries_sound : ∀ entry ∈ TableSpc700.entries, entry.Sound := by
  decide +kernel

theorem Platform.forms_sound (platform : Platform) {m : String} {fs : List Form}
    (h : platform.instructions.forms[m]? = some fs) : ∀ f ∈ fs, f.Sound := by
  cases platform with
  | mos6502 => exact InstructionSet.forms_sound Table65816.entries6502_sound h
  | w65816 => exact InstructionSet.forms_sound Table65816.entries65816_sound h
  | sm83 => exact InstructionSet.forms_sound TableSm83.entries_sound h
  | spc700 => exact InstructionSet.forms_sound TableSpc700.entries_sound h

/-- **Encoding loses no operand.** An instruction of any processor has the length its encoding
promises, and all of its operands are read back from the bytes, each up to its modulus. Operands with
the same bytes therefore agree up to their moduli. -/
theorem encode_lossless (platform : Platform) {m : String} {fs : List Form} {f : Form} {e : Encoding}
    {values : List Int64} {pc : Int64} {bytes : List UInt8}
    (hforms : platform.instructions.forms[m]? = some fs) (hf : f ∈ fs) (he : e ∈ f.encodings)
    (hlen : values.length = f.pattern.placeholders) (h : f.encode e values pc = .ok bytes) :
    bytes.length = e.length ∧ (f.layout.moduli e.width).length = values.length ∧
      f.layout.operands e bytes pc = f.layout.reduced e.width values ∧
      ∀ values' : List Int64, values'.length = f.pattern.placeholders → f.encode e values' pc = .ok bytes →
        f.layout.reduced e.width values' = f.layout.reduced e.width values := by
  have hsound := platform.forms_sound hforms f hf
  have hsuits := hsound.suits e he
  rw [hsound.placeholders] at hlen ⊢
  have hread := Layout.operands_of_encode hsuits hlen h
  refine ⟨Layout.length_of_encode hsuits h, ?_, hread, fun values' hlen' h' => ?_⟩
  · rw [Layout.length_moduli, hlen]
  · rw [← hread, Layout.operands_of_encode hsuits hlen' h']

set_option maxRecDepth 100000 in
/-- A branch on a bit of the direct page has an operand of each kind: one up to 256, a bit number in
the opcode and a branch target. -/
theorem encode_lossless_bbs : let f : Form := ⟨.ofText "[exp].[exp],[exp]", .directBitRelative, [⟨2, [0x03]⟩]⟩
    Platform.spc700.instructions.forms["bbs"]? = some [f] ∧
      f.encode ⟨2, [0x03]⟩ [-1, 3, 0x210] 0x200 = .ok [0x63, 0xFF, 0x0D] ∧
      f.layout.operands ⟨2, [0x03]⟩ [0x63, 0xFF, 0x0D] 0x200 = [255, 3, 0x210] := by
  intro f
  have hforms : Platform.spc700.instructions.forms["bbs"]? = some [f] := by decide +kernel
  have h : f.encode ⟨2, [0x03]⟩ [-1, 3, 0x210] 0x200 = .ok [0x63, 0xFF, 0x0D] := by rfl
  have hlen : [(-1 : Int64), 3, 0x210].length = f.pattern.placeholders := by decide +kernel
  have hread := encode_lossless .spc700 hforms (List.mem_singleton_self f) (List.mem_singleton_self _) hlen h
  refine ⟨hforms, h, ?_⟩
  rw [hread.2.2.1]
  decide +kernel

end CrossAssembler
