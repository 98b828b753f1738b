import CrossAssembler.Proofs.Expression.Tree
import CrossAssembler.Proofs.Word

/-!
# Integer expressions

An expression of words and integer operators is worked out over the unbounded integers. Its value is found
exactly, or it is refused because some result on the way is no word. The one exception is the shift to the
left, which drops the bits that leave the word.

Principal result: `integers_exact_or_shifted` — an integer expression is exact, refused, or shifted out of a word.
-/

namespace CrossAssembler

open Expression (Error)

/-- The operators between two integers that give an integer. -/
inductive IntegerOp where
  | mul | rem | add | sub | shl | shr | bitAnd | bitXor | bitOr
  deriving DecidableEq, Repr

namespace IntegerOp

/-- The operator of an expression. -/
def op : IntegerOp → BinaryOp
  | mul => .mul
  | rem => .rem
  | add => .add
  | sub => .sub
  | shl => .shl
  | shr => .shr
  | bitAnd => .bitAnd
  | bitXor => .bitXor
  | bitOr => .bitOr

/-- The value of an operator on unbounded integers. The remainder has the sign of the dividend, the shift to
the right rounds down, and bits are those of two's complement. -/
def apply (shift : Int → Nat → Int) : IntegerOp → Int → Int → Int
  | mul, a, b => a * b
  | rem, a, b => a.tmod b
  | add, a, b => a + b
  | sub, a, b => a - b
  | shl, a, b => shift a b.toNat
  | shr, a, b => a.fdiv (2 ^ b.toNat)
  | bitAnd, a, b => a.land b
  | bitXor, a, b => a.xor b
  | bitOr, a, b => a.lor b

/-- Whether an operator has a value: no remainder by zero, no shift by a negative amount or by the width of a
word and more. -/
def Defined : IntegerOp → Int → Int → Prop
  | rem, _, b => b ≠ 0
  | shl, _, b | shr, _, b => 0 ≤ b ∧ b ≤ 63
  | _, _, _ => True

/-- The remainder of the least word by -1, the one remainder that is refused. -/
def IsLeastByMinusOne (op : IntegerOp) (a b : Int) : Prop := op = rem ∧ a = Word.least ∧ b = -1

instance (op : IntegerOp) (a b : Int) : Decidable (op.Defined a b) :=
  match op with
  | rem => inferInstanceAs (Decidable (b ≠ 0))
  | shl | shr => inferInstanceAs (Decidable (0 ≤ b ∧ b ≤ 63))
  | mul | add | sub | bitAnd | bitXor | bitOr => isTrue trivial

instance (op : IntegerOp) (a b : Int) : Decidable (op.IsLeastByMinusOne a b) :=
  inferInstanceAs (Decidable (_ ∧ _ ∧ _))

end IntegerOp

/-- A shift to the left that loses nothing. -/
def fullShift (a : Int) (n : Nat) : Int := a * 2 ^ n

/-- A shift to the left that drops the bits that leave the word. -/
def wordShift (a : Int) (n : Nat) : Int := (fullShift a n).bmod (2 ^ 64)

/-! ## One operator -/

theorem Number.ofInt_of_holds {n : Int} (h : Word.Holds n) : Number.ofInt n = .ok (.int (Int64.ofInt n)) := by
  rw [Number.ofInt, Word.ofInt?_of_holds h]

theorem Number.ofInt_of_not_holds {n : Int} (h : ¬ Word.Holds n) : Number.ofInt n = .error .overflow := by
  rw [Number.ofInt, Word.ofInt?_of_not_holds h]

namespace Expression

/-- Whether a computation gives an integer where it is `sound` and does not meet the remainder that is refused,
and otherwise reports an overflow, or a division by zero where it is not sound. -/
structure Gives (sound least : Prop) (n : Int) (x : Except Error Outcome) : Prop where
  value : sound ∧ ¬ least → ∃ w : Int64, w.toInt = n ∧ x = .ok (.resolved (.ofWord w))
  refused : ¬ (sound ∧ ¬ least) → x = .error .overflow ∨ ¬ sound ∧ x = .error .divisionByZero

section Giving

variable {sound least sound' least' : Prop} {n n' : Int} {x : Except Error Outcome}

theorem gives_word {w : Int64} (hsound : sound) (hleast : ¬ least) (hw : w.toInt = n) :
    Gives sound least n (.ok (.resolved (.ofWord w))) where
  value _ := ⟨w, hw, rfl⟩
  refused h := absurd ⟨hsound, hleast⟩ h

theorem gives_overflow (h : ¬ (sound ∧ ¬ least)) : Gives sound least n (.error .overflow) where
  value hsound := absurd hsound h
  refused _ := .inl rfl

theorem gives_divisionByZero (h : ¬ sound) : Gives sound least n (.error .divisionByZero) where
  value hsound := absurd hsound.1 h
  refused _ := .inr ⟨h, rfl⟩

theorem gives_ofInt (hsound : sound ↔ Word.Holds n) (hleast : ¬ least) :
    Gives sound least n (((Number.ofInt n).map .number).map .resolved) := by
  by_cases h : Word.Holds n
  · rw [Number.ofInt_of_holds h]
    exact gives_word (hsound.mpr h) hleast (Word.toInt_ofInt h)
  · rw [Number.ofInt_of_not_holds h]
    exact gives_overflow fun he => h (hsound.mp he.1)

theorem Gives.withValue {next : Value → Except Error Outcome} (hx : Gives sound least n x)
    (hnext : ∀ w : Int64, w.toInt = n → Gives sound' least' n' (next (.ofWord w))) :
    Gives (sound ∧ sound') (least ∨ least') n' (withValue x next) := by
  by_cases h : sound ∧ ¬ least
  · obtain ⟨w, hw, rfl⟩ := hx.value h
    have hgives := hnext w hw
    refine ⟨fun he => hgives.value ⟨he.1.2, fun hl => he.2 (.inr hl)⟩, fun hrefused => ?_⟩
    have hnot : ¬ (sound' ∧ ¬ least') := fun he => hrefused ⟨⟨h.1, he.1⟩, not_or_intro h.2 he.2⟩
    exact (hgives.refused hnot).imp_right fun hzero => ⟨fun he => hzero.1 he.2, hzero.2⟩
  · rcases hx.refused h with rfl | ⟨hsound, rfl⟩
    · exact gives_overflow fun he => h ⟨he.1.1, fun hl => he.2 (.inl hl)⟩
    · exact gives_divisionByZero fun he => hsound he.1

end Giving

theorem gives_rem (m k : Int64) :
    Gives (k.toInt ≠ 0 ∧ Word.Holds (m.toInt.tmod k.toInt)) (IntegerOp.rem.IsLeastByMinusOne m.toInt k.toInt)
      (m.toInt.tmod k.toInt) (((Number.rem (.int m) (.int k)).map .number).map .resolved) := by
  change Gives _ _ _ (((if k = 0 then _ else if m.toInt = Word.least ∧ k.toInt = -1 then _ else _ :
    Except Error Number).map _).map _)
  split
  · rename_i hzero
    subst hzero
    exact gives_divisionByZero fun he => he.1 rfl
  rename_i hzero
  have hk : k.toInt ≠ 0 := fun h => hzero (Int64.toInt_inj.mp h)
  split
  · rename_i h
    exact gives_overflow fun he => he.2 ⟨rfl, h⟩
  · rename_i h
    exact gives_ofInt (and_iff_right hk) fun hl => h hl.2

theorem gives_shift (operator : String) (f : Int64 → Int64 → Int64) (m k : Int64) {n : Int}
    (hf : 0 ≤ k.toInt → k.toInt < 64 → (f m k).toInt = n) {least : Prop} (hleast : ¬ least) :
    Gives ((0 ≤ k.toInt ∧ k.toInt ≤ 63) ∧ Word.Holds n) least n
      (((Number.shift operator f (.int m) (.int k)).map .number).map .resolved) := by
  change Gives _ _ _ (((if 0 ≤ k.toInt ∧ k.toInt < 64 then _ else _ : Except Error Number).map _).map _)
  split
  · rename_i h
    have hn := hf h.1 h.2
    exact gives_word ⟨⟨h.1, Int.le_of_lt_add_one h.2⟩, hn ▸ Word.holds_toInt _⟩ hleast hn
  · rename_i h
    exact gives_overflow fun he => h ⟨he.1.1.1, Int.lt_add_one_of_le he.1.1.2⟩

theorem gives_bitwise (operator : String) (f : Int64 → Int64 → Int64) (m k : Int64) {n : Int}
    (hf : (f m k).toInt = n) {least : Prop} (hleast : ¬ least) :
    Gives (True ∧ Word.Holds n) least n (((Number.bitwise operator f (.int m) (.int k)).map .number).map .resolved) :=
  gives_word ⟨trivial, hf ▸ Word.holds_toInt _⟩ hleast hf

theorem gives_apply (op : IntegerOp) (m k : Int64) :
    Gives (op.Defined m.toInt k.toInt ∧ Word.Holds (op.apply wordShift m.toInt k.toInt))
      (op.IsLeastByMinusOne m.toInt k.toInt) (op.apply wordShift m.toInt k.toInt)
      ((op.op.apply (.ofWord m) (.ofWord k)).map .resolved) := by
  cases op with
  | mul | add | sub => exact gives_ofInt (iff_of_eq (true_and _)) nofun
  | rem => exact gives_rem m k
  | shl => exact gives_shift "<<" _ m k (Word.toInt_shiftLeft m) nofun
  | shr => exact gives_shift ">>" _ m k (Word.toInt_shiftRight m) nofun
  | bitAnd => exact gives_bitwise "&" _ m k (Word.toInt_and m k) nofun
  | bitXor => exact gives_bitwise "^" _ m k (Word.toInt_xor m k) nofun
  | bitOr => exact gives_bitwise "|" _ m k (Word.toInt_or m k) nofun

end Expression

/-! ## Whole expressions -/

/-- An integer expression. -/
inductive Arithmetic where
  | word (n : Int64)
  | negate (operand : Arithmetic)
  | combine (op : IntegerOp) (left right : Arithmetic)
  deriving DecidableEq, Repr

namespace Arithmetic

/-- The value over unbounded integers. -/
def value (shift : Int → Nat → Int) : Arithmetic → Int
  | word n => n.toInt
  | negate a => -a.value shift
  | combine op a b => op.apply shift (a.value shift) (b.value shift)

/-- Whether every operator has a value and every result on the way is a word. -/
def Exact (shift : Int → Nat → Int) : Arithmetic → Prop
  | word _ => True
  | negate a => a.Exact shift ∧ Word.Holds (-a.value shift)
  | combine op a b => a.Exact shift ∧ b.Exact shift ∧ op.Defined (a.value shift) (b.value shift) ∧
      Word.Holds (op.apply shift (a.value shift) (b.value shift))

/-- Whether the remainder of the least word by -1 is taken somewhere. -/
def MeetsLeast (shift : Int → Nat → Int) : Arithmetic → Prop
  | word _ => False
  | negate a => a.MeetsLeast shift
  | combine op a b => a.MeetsLeast shift ∨ b.MeetsLeast shift ∨ op.IsLeastByMinusOne (a.value shift) (b.value shift)

instance decidableExact (shift : Int → Nat → Int) : (a : Arithmetic) → Decidable (a.Exact shift)
  | word _ => isTrue trivial
  | negate a =>
    have := decidableExact shift a
    inferInstanceAs (Decidable (_ ∧ _))
  | combine _ a b =>
    have := decidableExact shift a
    have := decidableExact shift b
    inferInstanceAs (Decidable (_ ∧ _ ∧ _ ∧ _))

instance decidableMeetsLeast (shift : Int → Nat → Int) : (a : Arithmetic) → Decidable (a.MeetsLeast shift)
  | word _ => isFalse id
  | negate a => decidableMeetsLeast shift a
  | combine _ a b =>
    have := decidableMeetsLeast shift a
    have := decidableMeetsLeast shift b
    inferInstanceAs (Decidable (_ ∨ _ ∨ _))

theorem apply_wordShift {op : IntegerOp} {m n : Int} (h : Word.Holds (op.apply fullShift m n)) :
    op.apply wordShift m n = op.apply fullShift m n := by
  cases op with
  | shl => exact Int.bmod_eq_of_le h.1 (Int.lt_add_one_of_le h.2)
  | _ => rfl

theorem exact_wordShift {a : Arithmetic} (h : a.Exact fullShift) :
    a.Exact wordShift ∧ a.value wordShift = a.value fullShift ∧
      (a.MeetsLeast wordShift ↔ a.MeetsLeast fullShift) := by
  induction a with
  | word n => exact ⟨trivial, rfl, Iff.rfl⟩
  | negate a ih =>
    obtain ⟨hexact, hvalue, hleast⟩ := ih h.1
    refine ⟨⟨hexact, ?_⟩, ?_, hleast⟩
    · rw [hvalue]
      exact h.2
    · rw [value, value, hvalue]
  | combine op a b iha ihb =>
    obtain ⟨ha, hb, hdefined, hholds⟩ := h
    obtain ⟨hexacta, hvaluea, hleasta⟩ := iha ha
    obtain ⟨hexactb, hvalueb, hleastb⟩ := ihb hb
    have happly := apply_wordShift hholds
    simp only [Exact, value, MeetsLeast, hvaluea, hvalueb, hleasta, hleastb, happly, and_true]
    exact ⟨hexacta, hexactb, hdefined, hholds⟩

end Arithmetic

namespace Expression

variable {resolve : Resolver} {t : Tree} {a : Arithmetic}

/-- Whether a tree is an integer expression: its leaves are words, as they are written or as the labels have
them, and its operators are those of integers. -/
inductive Tree.Is (resolve : Resolver) : Tree → Arithmetic → Prop
  | number (n : Int64) (start stop : Nat) : Is resolve (.leaf (.number (.int n)) start stop) (.word n)
  | label {reference : Reference} {start stop : Nat} {n : Int64} :
      resolve reference start stop = some (.ofWord n) → Is resolve (.leaf (.label reference) start stop) (.word n)
  | negate {t : Tree} {a : Arithmetic} (start stop : Nat) :
      Is resolve t a → Is resolve (.unary .negate start stop t) (.negate a)
  | combine {l r : Tree} {a b : Arithmetic} (op : IntegerOp) (start stop : Nat) :
      Is resolve l a → Is resolve r b → Is resolve (.binary op.op start stop l r) (.combine op a b)

theorem gives_negate (m : Int64) : Gives (Word.Holds (-m.toInt)) False (-m.toInt)
    ((UnaryOp.negate.apply (.ofWord m)).map .resolved) := by
  have happly : UnaryOp.negate.apply (.ofWord m) = (Number.ofInt (-m.toInt)).map .number := by
    change ((Number.ofInt (-m.toInt)).bind fun n => .ok (Value.number n)) = _
    cases Number.ofInt (-m.toInt) <;> rfl
  rw [happly]
  exact gives_ofInt Iff.rfl id

/-- A tree gives what its integer expression says, with a shift that drops what leaves the word. -/
theorem Tree.Is.gives (h : t.Is resolve a) (mode : Mode) :
    Gives (a.Exact wordShift) (a.MeetsLeast wordShift) (a.value wordShift) (t.evaluate resolve mode) := by
  induction h with
  | number n => exact gives_word trivial id rfl
  | label hv =>
    simp only [Tree.evaluate, hv]
    exact gives_word trivial id rfl
  | negate start stop _ ih =>
    simp only [Arithmetic.Exact, Arithmetic.MeetsLeast, Arithmetic.value, Tree.evaluate]
    rw [← or_false (Arithmetic.MeetsLeast _ _)]
    refine ih.withValue fun w hw => ?_
    rw [← hw]
    exact gives_negate w
  | combine op start stop _ _ ihl ihr =>
    simp only [Arithmetic.Exact, Arithmetic.MeetsLeast, Arithmetic.value, Tree.evaluate]
    refine ihl.withValue fun w hw => ihr.withValue fun v hv => ?_
    rw [← hw, ← hv]
    exact gives_apply op w v

/-- Every way to evaluate an integer expression gives its value over unbounded integers where every result on
the way is a word and every operator is defined there, only the remainder of the least word by -1 is an
overflow. Otherwise it is an overflow or a division by zero, or else the value with a shift to the left that
drops the bits that leave the word, and nothing but such a shift is inexact. -/
theorem integers_exact_or_shifted (h : t.Is resolve a) {e : Expression} (he : e.parts = t.postorder) (mode : Mode) :
    (a.Exact fullShift → ¬ a.MeetsLeast fullShift →
      ∃ w : Int64, w.toInt = a.value fullShift ∧ e.evaluate resolve mode = .ok (.resolved (.ofWord w))) ∧
    (a.Exact fullShift → a.MeetsLeast fullShift → e.evaluate resolve mode = .error .overflow) ∧
    (¬ a.Exact fullShift → e.evaluate resolve mode = .error .overflow ∨
      e.evaluate resolve mode = .error .divisionByZero ∨
      a.Exact wordShift ∧
        ∃ w : Int64, w.toInt = a.value wordShift ∧ e.evaluate resolve mode = .ok (.resolved (.ofWord w))) := by
  have hevaluate : e.evaluate resolve mode = t.evaluate resolve mode := by
    rw [← evaluate_postorder e.text t resolve mode, ← he]
  rw [hevaluate]
  have hgives := h.gives mode
  refine ⟨fun hexact hleast => ?_, fun hexact hleast => ?_, fun _ => ?_⟩
  · obtain ⟨hword, hvalue, hmeets⟩ := Arithmetic.exact_wordShift hexact
    rw [← hvalue]
    exact hgives.value ⟨hword, mt hmeets.mp hleast⟩
  · obtain ⟨hword, -, hmeets⟩ := Arithmetic.exact_wordShift hexact
    exact (hgives.refused fun h => h.2 (hmeets.mpr hleast)).resolve_right fun h => h.1 hword
  · by_cases hword : a.Exact wordShift ∧ ¬ a.MeetsLeast wordShift
    · exact .inr (.inr ⟨hword.1, hgives.value hword⟩)
    · exact (hgives.refused hword).imp_right fun h => .inl h.2

/-- A remainder, negated, multiplied and halved: -5 is rounded down to -3. -/
theorem integers_exact_or_shifted_mixed : ∃ e : Expression, parse "-(7%3)*5>>1" = .ok e ∧
    ∃ w : Int64, w.toInt = -3 ∧ e.evaluate (fun _ _ _ => none) .final = .ok (.resolved (.ofWord w)) := by
  refine ⟨_, rfl, ?_⟩
  exact (integers_exact_or_shifted
    (.combine .shr 8 10 (.combine .mul 6 7 (.negate 0 1 (.combine .rem 3 4 (.number 7 2 3) (.number 3 4 5)))
      (.number 5 7 8)) (.number 1 10 11)) rfl .final).1 (by decide) (by decide)

/-- Bit 63 is the sign of a word: a shift there gives the least word, and is not refused. -/
theorem shifted_not_rejected : ∃ (e : Expression) (t : Tree) (a : Arithmetic), parse "1<<63" = .ok e ∧
    e.parts = t.postorder ∧ t.Is (fun _ _ _ => none) a ∧ a.value fullShift = 0x8000000000000000 ∧
    ¬ a.Exact fullShift ∧
    e.evaluate (fun _ _ _ => none) .final = .ok (.resolved (.ofWord (-0x8000000000000000))) := by
  refine ⟨_, _, _, rfl, ?_, .combine .shl 1 3 (.number 1 0 1) (.number 63 3 5), by decide, by decide, rfl⟩
  rfl

end Expression

end CrossAssembler
