import CrossAssembler.Word
import Mathlib

/-!
# Words as integers

* `Word.toInt_ofInt` — a word for each of them.

Principal results: `Word.toInt_shiftLeft`, `Word.toInt_shiftRight`, `Word.toInt_and`, `Word.toInt_xor`,
`Word.toInt_or` — what the operations on the bits of words do to the integers they stand for.
-/

namespace CrossAssembler.Word

variable {n : Int}

/-- Whether an integer is a word. -/
def Holds (n : Int) : Prop := least ≤ n ∧ n ≤ greatest

instance (n : Int) : Decidable (Holds n) := inferInstanceAs (Decidable (_ ∧ _))

theorem holds_toInt (w : Int64) : Holds w.toInt :=
  ⟨w.le_toInt, Int.le_of_lt_add_one w.toInt_lt⟩

theorem toInt_ofInt (h : Holds n) : (Int64.ofInt n).toInt = n :=
  Int64.toInt_ofInt_of_le h.1 (Int.lt_add_one_of_le h.2)

theorem ofInt?_of_holds (h : Holds n) : ofInt? n = some (Int64.ofInt n) := if_pos h

theorem ofInt?_of_not_holds (h : ¬ Holds n) : ofInt? n = none := if_neg h

/-! ## Shifts -/

theorem toNat_smod {n : Int64} (h : 0 ≤ n.toInt) (hlt : n.toInt < 64) :
    (n.toBitVec.smod 64).toNat = n.toInt.toNat := by
  have hmod : (n.toBitVec.smod 64).toInt = n.toInt := by
    rw [BitVec.toInt_smod, Int64.toInt_toBitVec]
    exact Int.fmod_eq_of_lt h hlt
  rw [BitVec.toInt_eq_toNat_cond] at hmod
  split at hmod
  · omega
  · have := (n.toBitVec.smod 64).isLt
    omega

theorem toInt_shiftLeft (m : Int64) {n : Int64} (h : 0 ≤ n.toInt) (hlt : n.toInt < 64) :
    (m <<< n).toInt = (m.toInt * 2 ^ n.toInt.toNat).bmod (2 ^ 64) := by
  rw [← Int64.toInt_toBitVec, Int64.toBitVec_shiftLeft, BitVec.shiftLeft_eq', toNat_smod h hlt,
    BitVec.toInt_shiftLeft, Nat.shiftLeft_eq, ← Int64.toInt_toBitVec m, BitVec.toInt_eq_toNat_bmod,
    Int.bmod_mul_bmod]
  push_cast
  rfl

theorem toInt_shiftRight (m : Int64) {n : Int64} (h : 0 ≤ n.toInt) (hlt : n.toInt < 64) :
    (m >>> n).toInt = m.toInt.fdiv (2 ^ n.toInt.toNat) := by
  rw [← Int64.toInt_toBitVec, Int64.toBitVec_shiftRight, BitVec.sshiftRight_eq', toNat_smod h hlt,
    BitVec.toInt_sshiftRight, Int64.toInt_toBitVec, Int.shiftRight_eq_div_pow, Int.fdiv_eq_ediv_of_nonneg]
  · push_cast
    rfl
  · positivity

/-! ## Bits -/

/-- An integer is known by its bits in two's complement. -/
theorem eq_of_testBit {m : Int} (h : ∀ i, m.testBit i = n.testBit i) : m = n := by
  -- far enough up, the bits of a natural number are off and those of a negative number are on
  have hfar (a b : Nat) : ¬ ∀ i, (Int.ofNat a).testBit i = (Int.negSucc b).testBit i := by
    intro hbits
    have hbit := hbits (a + b)
    have ha : a.testBit (a + b) = false := Nat.testBit_lt_two_pow (by
      exact Nat.lt_of_le_of_lt (Nat.le_add_right a b) Nat.lt_two_pow_self)
    have hb : b.testBit (a + b) = false := Nat.testBit_lt_two_pow (by
      exact Nat.lt_of_le_of_lt (Nat.le_add_left b a) Nat.lt_two_pow_self)
    simp only [Int.testBit, ha, hb] at hbit
    cases hbit
  cases m with
  | ofNat m =>
    cases n with
    | ofNat n => exact congrArg Int.ofNat (Nat.eq_of_testBit_eq h)
    | negSucc n => exact absurd h (hfar m n)
  | negSucc m =>
    cases n with
    | ofNat n => exact absurd (fun i => (h i).symm) (hfar n m)
    | negSucc n => exact congrArg Int.negSucc (Nat.eq_of_testBit_eq fun i => Bool.not_inj (h i))

/-- The bits of a word, the highest of which goes on for ever. -/
theorem testBit_toInt {w : Nat} (x : BitVec w) (i : Nat) :
    x.toInt.testBit i = if i < w then x.getLsbD i else x.msb := by
  have hhigh (hi : ¬ i < w) : x.toNat.testBit i = false := BitVec.getLsbD_of_ge x i (Nat.le_of_not_lt hi)
  rw [BitVec.toInt_eq_msb_cond]
  cases hmsb : x.msb with
  | false =>
    change x.toNat.testBit i = _
    split
    · rfl
    · exact hhigh ‹_›
  | true =>
    have hneg : (x.toNat : Int) - (2 ^ w : Nat) = Int.negSucc (2 ^ w - (x.toNat + 1)) := by
      have hlt := x.isLt
      rw [Int.negSucc_eq]
      omega
    rw [if_pos rfl, hneg]
    change (!(2 ^ w - (x.toNat + 1)).testBit i) = _
    rw [Nat.testBit_two_pow_sub_succ x.isLt]
    split
    · rename_i hi
      simp only [hi, decide_true, Bool.true_and, Bool.not_not]
      rfl
    · rename_i hi
      simp only [hi, decide_false, Bool.false_and, Bool.not_false]

theorem toInt_and (m n : Int64) : (m &&& n).toInt = Int.land m.toInt n.toInt := by
  refine eq_of_testBit fun i => ?_
  simp only [← Int64.toInt_toBitVec, Int64.toBitVec_and, Int.testBit_land, testBit_toInt]
  split
  · exact BitVec.getLsbD_and
  · exact BitVec.msb_and

theorem toInt_xor (m n : Int64) : (m ^^^ n).toInt = Int.xor m.toInt n.toInt := by
  refine eq_of_testBit fun i => ?_
  simp only [← Int64.toInt_toBitVec, Int64.toBitVec_xor, Int.testBit_lxor, testBit_toInt]
  split
  · exact BitVec.getLsbD_xor
  · exact BitVec.msb_xor

theorem toInt_or (m n : Int64) : (m ||| n).toInt = Int.lor m.toInt n.toInt := by
  refine eq_of_testBit fun i => ?_
  simp only [← Int64.toInt_toBitVec, Int64.toBitVec_or, Int.testBit_lor, testBit_toInt]
  split
  · exact BitVec.getLsbD_or
  · exact BitVec.msb_or

end CrossAssembler.Word
