import CrossAssembler.Proofs.Expression.Tree
import CrossAssembler.Symbol.Name

/-!
# Names of labels in expressions

Which names a label may have and how an expression is read are decided apart from each other. A name is
read as a reference to it unless it begins like a fraction, with a dot and a digit.

Principal result: `referable_iff` — exactly the other names refer to their labels, and every run of signs
refers to a nameless one.
-/

namespace CrossAssembler.Expression

open Text

/-- Whether a text is read as a reference that spans the whole of it. -/
def ReadsAs (text : String) (r : Reference) : Prop :=
  ∃ e, parse text = .ok e ∧ e.parts = [⟨.label r, 0, text.utf8ByteSize⟩]

/-- Whether a name begins with a dot and a digit. -/
def beginsFraction (name : String) : Bool :=
  match name.toList with
  | '.' :: d :: _ => d.isDigit
  | _ => false

/-! ## One part that takes the whole text -/

section Whole

variable {text : String} {c : Char} {cs : List Char}

theorem split_cons (hc : isAsciiBlank c = false) : split (c :: cs) = do
    let r ← operand 0 c cs
    let parts ← splitFrom (cs.length + 1) r.next r.size r.rest
    return ⟨r.kind, 0, r.size⟩ :: parts := by
  have hall : ¬ (c :: cs).all isAsciiBlank = true := by
    rw [List.all_cons, hc]
    exact Bool.false_ne_true
  have htake : (c :: cs).takeWhile isAsciiBlank = [] := by
    rw [List.takeWhile_cons, hc]
    rfl
  have hdrop : (c :: cs).dropWhile isAsciiBlank = c :: cs := by
    rw [List.dropWhile_cons, hc]
    rfl
  rw [split, if_neg hall, splitFrom, htake, hdrop]
  simp only [List.length_nil, List.length_cons, Nat.zero_add, reading]

theorem parse_of_operand {l : Leaf} {size : Nat} (htext : text.toList = c :: cs)
    (hc : isAsciiBlank c = false) (hread : operand 0 c cs = .ok ⟨l.kind, size, [], .operator⟩) :
    parse text = .ok ⟨text, [⟨l.kind, 0, size⟩]⟩ := by
  have hsplit : split text.toList = .ok [⟨l.kind, 0, size⟩] := by
    rw [htext, split_cons hc, hread]
    rfl
  have horder : order [⟨l.kind, 0, size⟩] = .ok [⟨l.kind, 0, size⟩] := by
    rw [order, orderFrom_leaf]
    rfl
  rw [parse, hsplit]
  change (order [⟨l.kind, 0, size⟩] >>= fun ordered => .ok (⟨text, ordered⟩ : Expression)) = _
  rw [horder]
  rfl

theorem parse_of_operand_error {err : Error} (htext : text.toList = c :: cs)
    (hc : isAsciiBlank c = false) (hread : operand 0 c cs = .error err) : parse text = .error err := by
  rw [parse, htext, split_cons hc, hread]
  rfl

end Whole

/-! ## Names -/

section Naming

variable {name : String} {c : Char} {cs : List Char}

/-- The characters that begin operands other than names and numbers. -/
def operandMarks : List Char := ['(', '+', '-', '!', '<', '>', '*', '"', '\'', '$', '@']

/-- Whether a name may begin with a character. -/
def BeginsName (c : Char) : Prop := c.isAlpha = true ∨ c = '_' ∨ c = '.'

namespace BeginsName

theorem not_mark (h : BeginsName c) : c ∉ operandMarks := by
  intro hmem
  simp only [operandMarks, List.mem_cons, List.not_mem_nil, or_false] at hmem
  unfold BeginsName at h
  rcases hmem with rfl | rfl | rfl | rfl | rfl | rfl | rfl | rfl | rfl | rfl | rfl <;> revert h <;> decide

theorem not_digit (h : BeginsName c) : c.isDigit = false := by
  rcases h with halpha | rfl | rfl
  · simp only [Char.isAlpha, Char.isUpper, Char.isLower, Bool.or_eq_true, Bool.and_eq_true,
      decide_eq_true_eq] at halpha
    simp only [Char.isDigit, Bool.and_eq_false_imp, decide_eq_true_eq, decide_eq_false_iff_not]
    grind
  · rfl
  · rfl

theorem isWordChar (h : BeginsName c) : isWordChar c = true := by
  rcases h with halpha | rfl | rfl
  · rw [Expression.isWordChar, Char.isAlphanum, halpha]
    rfl
  · rfl
  · rfl

theorem not_blank (h : BeginsName c) : isAsciiBlank c = false := by
  cases hblank : isAsciiBlank c with
  | false => rfl
  | true =>
    simp only [isAsciiBlank, Bool.or_eq_true, beq_iff_eq] at hblank
    unfold BeginsName at h
    rcases hblank with (((rfl | rfl) | rfl) | rfl) | rfl <;> revert h <;> decide

end BeginsName

/-- Where a name begins nothing else can, but for a fraction: the name is read to its end. -/
theorem operand_of_name (hc : BeginsName c) (hdot : c = '.' → cs.head?.any Char.isDigit = false)
    (hcs : ∀ d ∈ cs, isWordChar d = true) :
    operand 0 c cs = .ok ⟨.label (.named (String.ofList (c :: cs))), byteLength (c :: cs), [], .operator⟩ := by
  have hfraction : ¬ (c = '.' ∧ cs.head?.any Char.isDigit = true) := by
    rintro ⟨rfl, h⟩
    rw [hdot rfl] at h
    cases h
  have hstart : (c.isAlpha || c = '_' || c = '.') = true := by
    rcases hc with h | rfl | rfl
    · rw [h]
      rfl
    · rfl
    · rfl
  have hword : ∀ d ∈ c :: cs, isWordChar d = true := List.forall_mem_cons.mpr ⟨hc.isWordChar, hcs⟩
  have hmarks := hc.not_mark
  simp only [operandMarks, List.mem_cons, List.not_mem_nil, or_false, not_or] at hmarks
  unfold operand
  simp only [hmarks, if_false, hc.not_digit, Bool.false_eq_true, hfraction, hstart, if_true]
  rw [List.takeWhile_eq_self_iff.mpr hword, List.dropWhile_eq_nil_iff.mpr hword]

/-- A text that begins like a fraction is a number to its end, or nothing. -/
theorem operand_of_fraction (hdigit : cs.head?.any Char.isDigit = true) (hcs : ∀ d ∈ cs, isWordChar d = true) :
    operand 0 '.' cs = numberReading 0 ('.' :: cs) [] (decimalNumber? ('.' :: cs)) := by
  have hword : ∀ d ∈ '.' :: cs, isWordChar d = true := List.forall_mem_cons.mpr ⟨rfl, hcs⟩
  have hdot : BeginsName '.' := .inr (.inr rfl)
  have hmarks := hdot.not_mark
  simp only [operandMarks, List.mem_cons, List.not_mem_nil, or_false, not_or] at hmarks
  unfold operand operand.decimal
  simp only [hmarks, if_false, hdot.not_digit, Bool.false_eq_true, hdigit, true_and, if_true]
  rw [List.takeWhile_eq_self_iff.mpr hword, List.dropWhile_eq_nil_iff.mpr hword]

theorem chars_of_plain (h : NameScope.ofName? name = some .global ∨ NameScope.ofName? name = some .local) :
    ∃ c cs, name.toList = c :: cs ∧ BeginsName c ∧ ∀ d ∈ cs, isWordChar d = true := by
  unfold NameScope.ofName? at h
  cases hname : name.toList with
  | nil =>
    rw [hname] at h
    rcases h with h | h <;> cases h
  | cons c cs =>
    refine ⟨c, cs, rfl, ?_⟩
    rw [hname] at h
    simp only [NameScope.ofChars?] at h
    split at h
    · rcases h with h | h <;> cases h
    split at h
    · rcases h with h | h <;> cases h
    split at h
    · rename_i hdot
      split at h
      · rename_i htail
        exact ⟨.inr (.inr hdot), List.all_eq_true.mp htail⟩
      · rcases h with h | h <;> cases h
    split at h
    · rename_i hglobal
      simp only [Bool.and_eq_true, Bool.or_eq_true, beq_iff_eq] at hglobal
      exact ⟨hglobal.1.imp_right .inl, List.all_eq_true.mp hglobal.2⟩
    · rcases h with h | h <;> cases h

/-- A plain name is read as a reference to it exactly if it does not begin like a fraction. -/
theorem readsAs_named_iff (h : NameScope.ofName? name = some .global ∨ NameScope.ofName? name = some .local) :
    ReadsAs name (.named name) ↔ beginsFraction name = false := by
  obtain ⟨c, cs, hname, hc, hcs⟩ := chars_of_plain h
  have hsize : byteLength (c :: cs) = name.utf8ByteSize := by rw [← hname, byteLength_toList]
  have htext : String.ofList (c :: cs) = name := by rw [← hname, String.ofList_toList]
  by_cases hfraction : c = '.' ∧ cs.head?.any Char.isDigit = true
  · obtain ⟨rfl, hdigit⟩ := hfraction
    have hbegins : beginsFraction name = true := by
      unfold beginsFraction
      rw [hname]
      cases cs with
      | nil => cases hdigit
      | cons d ds => exact hdigit
    have hread := operand_of_fraction hdigit hcs
    refine iff_of_false ?_ (by rw [hbegins]; exact Bool.noConfusion)
    -- the only part is a number
    rintro ⟨e, hparse, hparts⟩
    unfold numberReading at hread
    split at hread
    · rename_i n _
      rw [parse_of_operand (l := .number n) hname hc.not_blank hread] at hparse
      cases hparse
      cases hparts
    · rw [parse_of_operand_error hname hc.not_blank hread] at hparse
      cases hparse
  · have hdot : c = '.' → cs.head?.any Char.isDigit = false := fun hdot =>
      Bool.eq_false_iff.mpr fun hdigit => hfraction ⟨hdot, hdigit⟩
    have hbegins : beginsFraction name = false := by
      unfold beginsFraction
      rw [hname]
      split
      · rename_i hcons
        cases hcons
        exact hdot rfl
      · rfl
    have hread := operand_of_name hc hdot hcs
    rw [htext, hsize] at hread
    exact iff_of_true ⟨_, parse_of_operand (l := .label (.named name)) hname hc.not_blank hread, rfl⟩ hbegins

end Naming

/-! ## Runs of signs -/

theorem namelessRun_replicate (c : Char) (k : Nat) : namelessRun? c (List.replicate k c) = some (k, []) := by
  have hall : ∀ d ∈ List.replicate k c, (d == c) = true := fun d hd =>
    beq_iff_eq.mpr (List.eq_of_mem_replicate hd)
  unfold namelessRun?
  rw [List.takeWhile_eq_self_iff.mpr hall, List.dropWhile_eq_nil_iff.mpr hall]
  simp only [List.dropWhile_nil, List.length_replicate]

theorem byteLength_replicate {c : Char} (hc : c.utf8Size = 1) (k : Nat) : byteLength (List.replicate k c) = k := by
  induction k with
  | zero => rfl
  | succ k ih => rw [List.replicate_succ, byteLength_cons, ih, hc, Nat.add_comm]

/-- A run of signs that is read as one operand is a reference and nothing else. -/
theorem readsAs_signs {c : Char} {k : Nat} {r : Reference} (hsize : c.utf8Size = 1) (hblank : isAsciiBlank c = false)
    (hread : operand 0 c (List.replicate k c) = .ok ⟨.label r, k + 1, [], .operator⟩) :
    ReadsAs (String.ofList (List.replicate (k + 1) c)) r := by
  refine ⟨_, parse_of_operand (l := .label r) String.toList_ofList hblank hread, ?_⟩
  rw [utf8ByteSize_ofList, byteLength_replicate hsize]
  rfl

theorem readsAs_forward (k : Nat) : ReadsAs (String.ofList (List.replicate (k + 1) '+')) (.forward (k + 1)) := by
  refine readsAs_signs rfl rfl ?_
  unfold operand
  rw [← List.replicate_succ, namelessRun_replicate]
  rfl

theorem readsAs_backward (k : Nat) : ReadsAs (String.ofList (List.replicate (k + 1) '-')) (.backward (k + 1)) := by
  refine readsAs_signs rfl rfl ?_
  unfold operand
  rw [← List.replicate_succ, namelessRun_replicate]
  rfl

/-- Of the names that a label may have, exactly those are read as references to it that do not begin with a
dot and a digit, and every run of plus or minus signs is read as one reference to a nameless label. -/
theorem referable_iff (name : String) (k : Nat) :
    (NameScope.ofName? name = some .global ∨ NameScope.ofName? name = some .local →
      (ReadsAs name (.named name) ↔ beginsFraction name = false)) ∧
    (1 ≤ k → ReadsAs (String.ofList (List.replicate k '+')) (.forward k) ∧
      ReadsAs (String.ofList (List.replicate k '-')) (.backward k)) := by
  refine ⟨readsAs_named_iff, fun hk => ?_⟩
  obtain ⟨k, rfl⟩ := Nat.exists_eq_add_of_le' hk
  exact ⟨readsAs_forward k, readsAs_backward k⟩

theorem referable_iff_local : NameScope.ofName? ".loop2" = some .local ∧ ReadsAs ".loop2" (.named ".loop2") ∧
    ReadsAs "+++" (.forward 3) := by
  have hname : NameScope.ofName? ".loop2" = some .local := by decide
  obtain ⟨hnamed, hsigns⟩ := referable_iff ".loop2" 3
  exact ⟨hname, (hnamed (.inr hname)).mpr (by decide), (hsigns (by decide)).1⟩

/-- A label may be called `.1`, and no expression refers to it by that name. -/
theorem fraction_not_referable : NameScope.ofName? ".1" = some .local ∧ ¬ ReadsAs ".1" (.named ".1") := by
  have hname : NameScope.ofName? ".1" = some .local := by decide
  exact ⟨hname, fun h => Bool.noConfusion ((readsAs_named_iff (.inr hname)).mp h)⟩

end CrossAssembler.Expression
