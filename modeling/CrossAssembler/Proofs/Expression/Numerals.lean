import CrossAssembler.Proofs.Expression.Names
import CrossAssembler.Proofs.Word

/-!
# Numbers as they are written

A run of digits after a radix mark, or of decimal digits alone, is the number that its digits stand for if that is
a word. Every other run after a radix mark is an invalid number as a whole.

Principal result: `numerals_denote_or_rejected` — numbers denote their values or are rejected.
-/

namespace CrossAssembler.Expression

open Text

variable {d : Nat} {c : Char} {ds : List Nat}

/-- The marks in front of the digits of a number, with the base of the digits. -/
def radixMarks : List (List Char × Nat) := [(['$'], 16), (['0', 'x'], 16), (['0', 'X'], 16), (['@'], 2)]

/-- Whether a character is how a digit is written. -/
def Spells (d : Nat) (c : Char) : Prop := c = d.digitChar ∨ c = d.digitChar.toUpper

/-- Whether characters are how digits of a base are written. -/
structure Spelled (base : Nat) (ds : List Nat) (cs : List Char) : Prop where
  digits : List.Forall₂ Spells ds cs
  below : ∀ d ∈ ds, d < base

/-- Whether a text is an invalid number from its first byte to its last. -/
def Rejected (text : String) : Prop := evaluateText text = .error (.invalidNumber text 0 text.utf8ByteSize)

/-- Whether a text has the value of a number if that is a word, and is an invalid number otherwise. -/
def Denotes (text : String) (n : Nat) : Prop :=
  (n ≤ 2 ^ 63 - 1 → ∃ w : Int64, w.toInt = n ∧ evaluateText text = .ok (.ofWord w)) ∧ (2 ^ 63 - 1 < n → Rejected text)

/-! ## Digits -/

theorem digit_of_spells (hd : d < 16) (h : Spells d c) : Word.readDigits?.digit? c = some d := by
  interval_cases d <;> rcases h with rfl | rfl <;> decide

theorem spells_of_digit (hd : d < 16) (h : Word.readDigits?.digit? c = some d) : Spells d c := by
  -- The code of the character is that of the digit in one of the three ranges.
  have hcode : d < 10 ∧ c.toNat = 48 + d ∨ 10 ≤ d ∧ (c.toNat = 87 + d ∨ c.toNat = 55 + d) := by
    unfold Word.readDigits?.digit? at h
    simp only [Char.le_def, UInt32.le_iff_toNat_le, Char.toNat] at h ⊢
    split_ifs at h with hten hlower hupper <;> simp only [Option.some.injEq] at h
    · change 48 ≤ _ ∧ _ ≤ 57 at hten
      change _ - 48 = d at h
      omega
    · change 97 ≤ _ ∧ _ ≤ 122 at hlower
      change _ - 97 + 10 = d at h
      omega
    · change 65 ≤ _ ∧ _ ≤ 90 at hupper
      change _ - 65 + 10 = d at h
      omega
  rw [← Char.ofNat_toNat c]
  rcases hcode with ⟨hten, hcode⟩ | ⟨hten, hcode | hcode⟩ <;> rw [hcode]
  · left
    interval_cases d <;> rfl
  · left
    interval_cases d <;> rfl
  · right
    interval_cases d <;> rfl

theorem isWordChar_of_spells (hd : d < 16) (h : Spells d c) : isWordChar c = true := by
  interval_cases d <;> rcases h with rfl | rfl <;> decide

theorem ofDigits_reverse (base : Nat) (ds : List Nat) :
    Nat.ofDigits base ds.reverse = ds.foldl (fun n d => n * base + d) 0 := by
  rw [Nat.ofDigits_eq_foldr, List.foldr_reverse]
  congr 1
  funext n d
  rw [Nat.cast_id, Nat.add_comm, Nat.mul_comm]

section Digits

variable {base : Nat} {ds : List Nat} {cs : List Char}

theorem readDigits_of_spelled (hbase : base ≤ 16) (h : Spelled base ds cs) :
    Word.readDigits? base cs = some (Nat.ofDigits base ds.reverse) := by
  rw [ofDigits_reverse]
  unfold Word.readDigits?
  generalize 0 = n
  obtain ⟨hdigits, hbelow⟩ := h
  induction hdigits generalizing n with
  | nil => rfl
  | cons hc _ ih =>
    obtain ⟨hd, hbelow⟩ := List.forall_mem_cons.mp hbelow
    rw [List.foldlM_cons, digit_of_spells (hd.trans_le hbase) hc, Option.bind_some, if_pos hd]
    exact ih _ hbelow

theorem readDigits_of_foreign (hbase : base ≤ 16) (h : ∃ c ∈ cs, ∀ d < base, ¬ Spells d c) :
    Word.readDigits? base cs = none := by
  unfold Word.readDigits?
  generalize 0 = n
  induction cs generalizing n with
  | nil => simp at h
  | cons c cs ih =>
    rw [List.foldlM_cons]
    cases hc : Word.readDigits?.digit? c with
    | none => rfl
    | some d =>
      rw [Option.bind_some]
      by_cases hd : d < base
      · have hspells : Spells d c := spells_of_digit (hd.trans_le hbase) hc
        obtain ⟨e, he, hforeign⟩ := h
        rcases List.mem_cons.mp he with rfl | he
        · exact absurd hspells (hforeign d hd)
        · rw [if_pos hd]
          exact ih ⟨e, he, hforeign⟩ _
      · rw [if_neg hd]
        rfl

theorem Spelled.isWordChar (hbase : base ≤ 16) (h : Spelled base ds cs) : ∀ c ∈ cs, isWordChar c = true := by
  obtain ⟨hdigits, hbelow⟩ := h
  induction hdigits with
  | nil => exact List.forall_mem_nil _
  | cons hc _ ih =>
    obtain ⟨hd, hbelow⟩ := List.forall_mem_cons.mp hbelow
    exact List.forall_mem_cons.mpr ⟨isWordChar_of_spells (hd.trans_le hbase) hc, ih hbelow⟩

theorem spelled_digitChar (h : ∀ d ∈ ds, d < base) : Spelled base ds (ds.map Nat.digitChar) :=
  ⟨List.forall₂_map_right_iff.mpr (List.forall₂_same.mpr fun _ _ => .inl rfl), h⟩

end Digits

/-! ## A number that takes the whole text -/

/-- The value of a text that is read as a number or as an invalid one. -/
def valueOrRejection (text : String) (value : Option Int64) : Except Error Value :=
  value.elim (.error (.invalidNumber text 0 text.utf8ByteSize)) fun w => .ok (.ofWord w)

section Whole

variable {c : Char} {cs : List Char}

theorem evaluateText_of_operand {value : Option Int64} (hc : isAsciiBlank c = false)
    (hread : operand 0 c cs = numberReading 0 (c :: cs) [] (value.map .int)) :
    evaluateText (String.ofList (c :: cs)) = valueOrRejection (String.ofList (c :: cs)) value := by
  unfold evaluateText
  cases value with
  | some w =>
    rw [parse_of_operand (l := .number (.int w)) String.toList_ofList hc hread]
    rfl
  | none =>
    rw [parse_of_operand_error String.toList_ofList hc hread, Nat.zero_add, ← utf8ByteSize_ofList]
    rfl

theorem denotes_of_evaluateText {text : String} {n : Nat}
    (h : evaluateText text = valueOrRejection text (Word.ofInt? n)) : Denotes text n := by
  refine ⟨fun hn => ?_, fun hn => ?_⟩
  · have hholds : Word.Holds n := by
      unfold Word.Holds Word.least Word.greatest
      omega
    rw [Word.ofInt?_of_holds hholds] at h
    exact ⟨_, Word.toInt_ofInt hholds, h⟩
  · have hholds : ¬ Word.Holds n := by
      unfold Word.Holds Word.least Word.greatest
      omega
    rw [Word.ofInt?_of_not_holds hholds] at h
    exact h

end Whole

/-! ## Runs after a mark -/

section Marked

variable {mark run : List Char} {base : Nat}

theorem radixMarks_base_le (h : (mark, base) ∈ radixMarks) : base ≤ 16 := by
  revert h
  unfold radixMarks
  grind

/-- A mark is not part of the run after it, and a word behind it is taken to its end. -/
theorem operand_of_radixMark (h : (mark, base) ∈ radixMarks) (run : List Char) : ∃ c cs,
    mark = c :: cs ∧ isAsciiBlank c = false ∧ operand 0 c (cs ++ run) = radixLiteral 0 base mark run := by
  simp only [radixMarks, List.mem_cons, List.not_mem_nil, or_false, Prod.mk.injEq] at h
  rcases h with ⟨rfl, rfl⟩ | ⟨rfl, rfl⟩ | ⟨rfl, rfl⟩ | ⟨rfl, rfl⟩ <;> exact ⟨_, _, rfl, rfl, rfl⟩

theorem evaluateText_of_radixMark (h : (mark, base) ∈ radixMarks) (hrun : ∀ c ∈ run, isWordChar c = true) :
    evaluateText (String.ofList (mark ++ run)) =
      valueOrRejection (String.ofList (mark ++ run)) (radixWord? base run) := by
  obtain ⟨c, cs, rfl, hc, hread⟩ := operand_of_radixMark h run
  refine evaluateText_of_operand hc (hread.trans ?_)
  unfold radixLiteral
  rw [List.takeWhile_eq_self_iff.mpr hrun, List.dropWhile_eq_nil_iff.mpr hrun]
  rfl

theorem radixWord_of_cons (h : run.filter (· != '_') ≠ []) : radixWord? base run =
    (Word.readDigits? base (run.filter (· != '_'))).bind fun n => Word.ofInt? n := by
  unfold radixWord?
  split
  · contradiction
  · rfl

theorem isWordChar_of_filter (h : ∀ c ∈ run.filter (· != '_'), isWordChar c = true) :
    ∀ c ∈ run, isWordChar c = true := by
  intro c hc
  by_cases hunder : c = '_'
  · rw [hunder]
    rfl
  · exact h c (List.mem_filter.mpr ⟨hc, bne_iff_ne.mpr hunder⟩)

theorem denotes_of_spelled (h : (mark, base) ∈ radixMarks) {ds : List Nat} (hne : ds ≠ [])
    (hspelled : Spelled base ds (run.filter (· != '_'))) :
    Denotes (String.ofList (mark ++ run)) (Nat.ofDigits base ds.reverse) := by
  have hbase : base ≤ 16 := radixMarks_base_le h
  have hrun : run.filter (· != '_') ≠ [] := fun hnil =>
    hne (List.forall₂_nil_right_iff.mp (hnil ▸ hspelled.digits))
  have hvalue := evaluateText_of_radixMark h (isWordChar_of_filter (hspelled.isWordChar hbase))
  rw [radixWord_of_cons hrun, readDigits_of_spelled hbase hspelled, Option.bind_some] at hvalue
  exact denotes_of_evaluateText hvalue

theorem rejected_of_foreign (h : (mark, base) ∈ radixMarks) (hrun : ∀ c ∈ run, isWordChar c = true)
    (hforeign : run.filter (· != '_') = [] ∨ ∃ c ∈ run.filter (· != '_'), ∀ d < base, ¬ Spells d c) :
    Rejected (String.ofList (mark ++ run)) := by
  have hnone : radixWord? base run = none := by
    rcases hforeign with hnil | hforeign
    · unfold radixWord?
      rw [hnil]
    · obtain ⟨c, hc, _⟩ := id hforeign
      rw [radixWord_of_cons (List.ne_nil_of_mem hc), readDigits_of_foreign (radixMarks_base_le h) hforeign]
      rfl
  unfold Rejected
  rw [evaluateText_of_radixMark h hrun, hnone]
  rfl

end Marked

/-! ## Decimal digits -/

theorem digitChar_decimal (hd : d < 10) :
    d.digitChar.isDigit = true ∧ isAsciiBlank d.digitChar = false ∧ d.digitChar ∉ operandMarks ∧
      d.digitChar ∉ ['x', 'X', '.'] := by
  interval_cases d <;> decide

theorem not_mem_digitChars (hc : c ∈ ['x', 'X', '.']) (h : ∀ d ∈ ds, d < 10) : c ∉ ds.map Nat.digitChar := by
  intro hmem
  obtain ⟨d, hd, rfl⟩ := List.mem_map.mp hmem
  exact (digitChar_decimal (h d hd)).2.2.2 hc

/-- Decimal digits are read as a decimal number to their end. A radix mark would have a letter. -/
theorem operand_of_digits (h : ∀ e ∈ d :: ds, e < 10) : operand 0 d.digitChar (ds.map Nat.digitChar) =
      numberReading 0 ((d :: ds).map Nat.digitChar) [] (decimalNumber? ((d :: ds).map Nat.digitChar)) := by
  have hword : ∀ c ∈ (d :: ds).map Nat.digitChar, isWordChar c = true :=
    (spelled_digitChar h).isWordChar (by decide)
  obtain ⟨hd, hds⟩ := List.forall_mem_cons.mp h
  obtain ⟨hdigit, -, hmarks, -⟩ := digitChar_decimal hd
  simp only [operandMarks, List.mem_cons, List.not_mem_nil, or_false, not_or] at hmarks
  unfold operand
  simp only [hmarks, if_false, hdigit, if_true]
  have hdecimal : operand.decimal 0 d.digitChar (ds.map Nat.digitChar) =
      numberReading 0 ((d :: ds).map Nat.digitChar) [] (decimalNumber? ((d :: ds).map Nat.digitChar)) := by
    unfold operand.decimal
    rw [← List.map_cons, List.takeWhile_eq_self_iff.mpr hword, List.dropWhile_eq_nil_iff.mpr hword]
  split
  · rename_i hx
    exact absurd (hx ▸ List.mem_cons_self) (not_mem_digitChars (c := 'x') (by decide) hds)
  · rename_i hx
    exact absurd (hx ▸ List.mem_cons_self) (not_mem_digitChars (c := 'X') (by decide) hds)
  · exact hdecimal

theorem denotes_of_decimal (hne : ds ≠ []) (h : ∀ d ∈ ds, d < 10) :
    Denotes (String.ofList (ds.map Nat.digitChar)) (Nat.ofDigits 10 ds.reverse) := by
  obtain ⟨d, ds, rfl⟩ := List.exists_cons_of_ne_nil hne
  have hpoint : ((d :: ds).map Nat.digitChar).contains '.' = false :=
    Bool.eq_false_iff.mpr fun hmem => not_mem_digitChars (by decide) h (List.contains_iff_mem.mp hmem)
  have hvalue : decimalNumber? ((d :: ds).map Nat.digitChar) =
      (Word.ofInt? (Nat.ofDigits 10 (d :: ds).reverse : Nat)).map .int := by
    unfold decimalNumber?
    rw [hpoint, readDigits_of_spelled (by decide) (spelled_digitChar h)]
    rfl
  have hread := operand_of_digits h
  rw [hvalue] at hread
  exact denotes_of_evaluateText (evaluateText_of_operand (digitChar_decimal (h d List.mem_cons_self)).2.1 hread)

/-- The digits of a number after a radix mark, in any case and with underscores anywhere, and decimal digits without
a mark denote the number they stand for. After a mark, a run without digits or with a character that is not a digit
of the base is an invalid number to its end. -/
theorem numerals_denote_or_rejected : (∀ mark base, (mark, base) ∈ radixMarks → ∀ run : List Char,
      (∀ ds ≠ [], Spelled base ds (run.filter (· != '_')) →
        Denotes (String.ofList (mark ++ run)) (Nat.ofDigits base ds.reverse)) ∧
      ((∀ c ∈ run, isWordChar c = true) →
        (run.filter (· != '_') = [] ∨ ∃ c ∈ run.filter (· != '_'), ∀ d < base, ¬ Spells d c) →
        Rejected (String.ofList (mark ++ run)))) ∧
    ∀ ds ≠ [], (∀ d ∈ ds, d < 10) → Denotes (String.ofList (ds.map Nat.digitChar)) (Nat.ofDigits 10 ds.reverse) :=
  ⟨fun _ _ hmark _ => ⟨fun _ hne => denotes_of_spelled hmark hne, rejected_of_foreign hmark⟩,
    fun _ hne => denotes_of_decimal hne⟩

end CrossAssembler.Expression
