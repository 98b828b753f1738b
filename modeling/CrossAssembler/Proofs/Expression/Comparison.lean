import CrossAssembler.Proofs.Expression.Tree

/-!
# Comparing integers

Comparisons are made between doubles, which have 53 significant bits. Two words are compared as the doubles
nearest to them, so a comparison is wrong exactly where different words have the same nearest double.

Principal results: `stands_ofInt` — an integer becomes the double of its nearest integer;
`comparisons_of_nearest` — comparisons are those of nearest integers, and exact if these differ.
-/

namespace CrossAssembler

open Float.Model Float.Model.UnpackedFloat

variable {n m value m' value' : Nat} {e : Int}

/-- A quotient to the nearest integer, halves to the even one. -/
def roundedQuotient (n d : Nat) : Nat :=
  if 2 * (n % d) < d then n / d
  else if d < 2 * (n % d) then n / d + 1
  else n / d + n / d % 2

/-- The number nearest to a given one that has 53 significant bits, halves to the even one. -/
def nearestNat (n : Nat) : Nat :=
  roundedQuotient n (2 ^ (n.log2 - 52)) * 2 ^ (n.log2 - 52)

/-- The integer that the double nearest to an integer stands for. -/
def nearest (n : Int) : Int := n.sign * nearestNat n.natAbs

/-! ## Rounding -/

/-- Whether a mantissa with its two further bits is what is kept of a quotient: the integer part, whether there
is at least a half more, and whether there is more than that. -/
structure Represents (em : ExtendedMantissa) (n d : Nat) : Prop where
  mantissa : em.mantissa = n / d
  half : em.roundBit = true ↔ d ≤ 2 * (n % d)
  more : em.stickyBit = true ↔ 2 * (n % d) ≠ 0 ∧ 2 * (n % d) ≠ d

namespace Represents

variable {em : ExtendedMantissa} {n d : Nat}

theorem roundedMantissa (h : Represents em n d) : em.roundedMantissa = roundedQuotient n d := by
  obtain ⟨m, half, more⟩ := em
  obtain ⟨rfl, hhalf, hmore⟩ := h
  unfold ExtendedMantissa.roundedMantissa ExtendedMantissa.accuracy roundedQuotient
  simp only at hhalf hmore
  cases half with
  | false =>
    have hless : 2 * (n % d) < d := Nat.lt_of_not_le fun h => Bool.false_ne_true (hhalf.mpr h)
    rw [if_pos hless]
    cases more <;> rfl
  | true =>
    have hnot : ¬ 2 * (n % d) < d := Nat.not_lt.mpr (hhalf.mp rfl)
    rw [if_neg hnot]
    cases more with
    | false =>
      have hequal : 2 * (n % d) = d := by
        by_contra hne
        have hzero : ¬ 2 * (n % d) ≠ 0 := fun h => Bool.false_ne_true (hmore.mpr ⟨h, hne⟩)
        omega
      rw [if_neg (Nat.not_lt.mpr hequal.le)]
      rfl
    | true =>
      obtain ⟨-, hne⟩ := hmore.mp rfl
      rw [if_pos (by omega)]
      rfl

theorem shiftRightOne (h : Represents em n d) (hd : 0 < d) : Represents em.shiftRightOne n (d * 2) := by
  have hquotient : n / (d * 2) = n / d / 2 := (Nat.div_div_eq_div_mul n d 2).symm
  have hremainder : n % (d * 2) = n % d + d * (n / d % 2) := Nat.mod_mul
  have hlt := Nat.mod_lt n hd
  obtain ⟨m, half, more⟩ := em
  obtain ⟨hm, hhalf, hmore⟩ := h
  simp only at hm hhalf hmore
  subst hm
  refine ⟨hquotient.symm, ?_, ?_⟩
  · simp only [ExtendedMantissa.shiftRightOne, bne_iff_ne]
    rcases Nat.mod_two_eq_zero_or_one (n / d) with hbit | hbit
    · rw [hremainder, hbit]
      omega
    · rw [hremainder, hbit]
      omega
  · simp only [ExtendedMantissa.shiftRightOne, Bool.or_eq_true, hhalf, hmore]
    rcases Nat.mod_two_eq_zero_or_one (n / d) with hbit | hbit
    · rw [hremainder, hbit]
      omega
    · rw [hremainder, hbit]
      omega

theorem shiftRight (h : Represents em n 1) (k : Nat) : Represents (em >>> k) n (2 ^ k) := by
  change Represents (Nat.repeat ExtendedMantissa.shiftRightOne k em) n (2 ^ k)
  induction k with
  | zero => exact h
  | succ k ih => exact ih.shiftRightOne (Nat.two_pow_pos k)

end Represents

theorem represents_exact (n : Nat) : Represents (.ofMantissaAndAccuracy n .exact) n 1 := by
  refine ⟨(Nat.div_one n).symm, ?_, ?_⟩ <;> simp [ExtendedMantissa.ofMantissaAndAccuracy, Nat.mod_one]

/-- A number with at least 53 bits loses as many as it has too many. -/
theorem roundedQuotient_bounds {k : Nat} (h : n.log2 = 52 + k) :
    2 ^ 52 ≤ roundedQuotient n (2 ^ k) ∧ roundedQuotient n (2 ^ k) ≤ 2 ^ 53 := by
  have hne : n ≠ 0 := by
    rintro rfl
    rw [Nat.log2_zero] at h
    omega
  have hk := Nat.two_pow_pos k
  have hleast : 2 ^ 52 ≤ n / 2 ^ k := by
    rw [Nat.le_div_iff_mul_le hk, ← Nat.pow_add, ← h]
    exact Nat.log2_self_le hne
  have hmost : n / 2 ^ k < 2 ^ 53 := by
    rw [Nat.div_lt_iff_lt_mul hk, ← Nat.pow_add, show 53 + k = n.log2 + 1 by omega]
    exact Nat.lt_log2_self
  unfold roundedQuotient
  split
  · omega
  · split <;> omega

/-! ## Doubles for integers -/

/-- Whether an unpacked double is a normal one, with 53 bits in its mantissa, for a multiple of `2 ^ -52`. -/
structure Stands (m : Nat) (e : Int) (value : Nat) : Prop where
  least : 2 ^ 52 ≤ m
  most : m < 2 ^ 53
  low : -52 ≤ e
  high : e ≤ 12
  value : m * 2 ^ (e + 52).toNat = value * 2 ^ 52

theorem shiftToTargetExponent_normal (hleast : 2 ^ 52 ≤ m) (hmost : m < 2 ^ 53) (hlow : -52 ≤ e) :
    shiftToTargetExponent Format.binary64 m e .exact = (⟨m, false, false⟩, e) := by
  have hlog : m.log2 = 52 := by
    rw [Nat.log2_eq_iff (by omega)]
    exact ⟨hleast, hmost⟩
  have htarget : Format.binary64.targetExponent (totalExponent m e) = e := by
    simp only [Format.targetExponent, totalExponent, hlog, Format.mantissaBits, Format.minExponent]
    norm_num
    omega
  simp only [shiftToTargetExponent, htarget, shiftToExponent, Int.sub_self, Int.toNat_zero, Int.natCast_zero,
    Int.add_zero]
  rfl

theorem shiftToTargetExponent_carry (hlow : -52 ≤ e) :
    shiftToTargetExponent Format.binary64 (2 ^ 53) e .exact = (⟨2 ^ 52, false, false⟩, e + 1) := by
  have htarget : Format.binary64.targetExponent (totalExponent (2 ^ 53) e) = e + 1 := by
    simp only [Format.targetExponent, totalExponent, Nat.log2_two_pow, Format.mantissaBits, Format.minExponent]
    norm_num
    omega
  have hshift : (e + 1 - e).toNat = 1 := by omega
  simp only [shiftToTargetExponent, htarget, shiftToExponent, hshift]
  rfl

/-- A mantissa with `k` bits too many is rounded, and once more shifted if a carry makes it a bit longer. -/
theorem roundWithAccuracy_eq (s : Sign) {k : Nat} (hlog : n.log2 = 52 + k) (hlow : -52 ≤ e) :
    ∃ m e' hm, roundWithAccuracy Format.binary64 s n e .exact = .finite s m e' hm ∧
      2 ^ 52 ≤ m ∧ m < 2 ^ 53 ∧ e + k ≤ e' ∧ e' ≤ e + k + 1 ∧
      m * 2 ^ (e' + 52).toNat = roundedQuotient n (2 ^ k) * 2 ^ (e + k + 52).toNat := by
  have htarget : Format.binary64.targetExponent (totalExponent n e) = e + k := by
    simp only [Format.targetExponent, totalExponent, hlog, Format.mantissaBits, Format.minExponent]
    push_cast
    omega
  have hshifted : shiftToTargetExponent Format.binary64 n e .exact =
      (ExtendedMantissa.ofMantissaAndAccuracy n .exact >>> k, e + k) := by
    have hshift : (e + k - e).toNat = k := by omega
    simp only [shiftToTargetExponent, htarget, shiftToExponent, hshift]
  have hfirst := ((represents_exact n).shiftRight k).roundedMantissa
  obtain ⟨hleast, hmost⟩ := roundedQuotient_bounds hlog
  have hk : -52 ≤ e + k := by omega
  rcases Nat.lt_or_eq_of_le hmost with hless | hcarry
  · have hne : roundedQuotient n (2 ^ k) ≠ 0 := by omega
    simp only [roundWithAccuracy, hshifted, hfirst, shiftToTargetExponent_normal hleast hless hk, hne, dite_false]
    exact ⟨_, _, Nat.pos_of_ne_zero hne, rfl, hleast, hless, Int.le_refl _, by omega, rfl⟩
  · simp only [roundWithAccuracy, hshifted, hfirst, hcarry, shiftToTargetExponent_carry hk]
    refine ⟨_, _, Nat.two_pow_pos 52, rfl, Nat.le_refl _, by norm_num, by omega, Int.le_refl _, ?_⟩
    rw [show (e + k + 1 + 52).toNat = (e + k + 52).toNat + 1 by omega, Nat.pow_succ]
    ring

theorem log2_shiftLeft (hn : n ≠ 0) (k : Nat) : (n <<< k).log2 = n.log2 + k := by
  have hk := Nat.two_pow_pos k
  rw [Nat.shiftLeft_eq, Nat.log2_eq_iff (Nat.mul_ne_zero hn hk.ne'), Nat.pow_add, Nat.add_right_comm, Nat.pow_add]
  exact ⟨Nat.mul_le_mul_right _ (Nat.log2_self_le hn), Nat.mul_lt_mul_of_pos_right Nat.lt_log2_self hk⟩

theorem roundedQuotient_one (n : Nat) : roundedQuotient n 1 = n := by
  rw [roundedQuotient, Nat.mod_one, if_pos (by decide), Nat.div_one]

/-- A number below `2 ^ 64` is rounded to the double for its nearest number. -/
theorem round_eq (s : Sign) (hpos : 0 < n) (hlt : n < 2 ^ 64) :
    ∃ m e hm, UnpackedFloat.round Format.binary64 s n 0 = .finite s m e hm ∧ Stands m e (nearestNat n) := by
  have hlog : n.log2 < 64 := (Nat.log2_lt hpos.ne').mpr hlt
  -- the mantissa is first brought to 53 bits at least
  have htarget : Format.binary64.targetExponent (totalExponent n 0) = n.log2 - 52 := by
    simp only [Format.targetExponent, totalExponent, Format.mantissaBits, Format.minExponent]
    push_cast
    norm_num
    omega
  have hshift : (0 - ((n.log2 : Int) - 52)).toNat = 52 - n.log2 := by omega
  have hlong : (n <<< (52 - n.log2)).log2 = 52 + (n.log2 - 52) := by
    rw [log2_shiftLeft hpos.ne']
    omega
  obtain ⟨m, e, hm, hround, hleast, hmost, hlow, hhigh, hvalue⟩ :=
    roundWithAccuracy_eq s hlong (e := 0 - ((52 - n.log2 : Nat) : Int)) (by omega)
  refine ⟨m, e, hm, ?_, hleast, hmost, by omega, by omega, hvalue.trans ?_⟩
  · simp only [UnpackedFloat.round, htarget, decreaseExponent, hshift]
    exact hround
  rw [show (0 - ((52 - n.log2 : Nat) : Int) + (n.log2 - 52 : Nat) + 52).toNat = n.log2 by omega, Nat.shiftLeft_eq]
  rcases Nat.le_total n.log2 52 with hle | hle
  · rw [nearestNat, Nat.sub_eq_zero_of_le hle, Nat.pow_zero, roundedQuotient_one, roundedQuotient_one,
      Nat.mul_one, Nat.mul_assoc, ← Nat.pow_add, Nat.sub_add_cancel hle]
  · rw [nearestNat, Nat.sub_eq_zero_of_le hle, Nat.pow_zero, Nat.mul_one, Nat.mul_assoc, ← Nat.pow_add,
      Nat.sub_add_cancel hle]

theorem unpack_pack (s : Sign) (h : Stands m e value) (hm : 0 < m) :
    (Float.Model.pack (.finite s m e hm)).unpack = .finite s m e hm := by
  obtain ⟨hleast, hmost, hlow, hhigh, -⟩ := h
  have hlog : m.log2 = 52 := by
    rw [Nat.log2_eq_iff (by omega)]
    exact ⟨hleast, hmost⟩
  have hexponent : (BitVec.ofNat 11 (e + 1023 + 52).toNat).toNat = (e + 1023 + 52).toNat := by
    rw [BitVec.toNat_ofNat, Nat.mod_eq_of_lt (by omega)]
  have hzero : BitVec.ofNat 11 (e + 1023 + 52).toNat ≠ 0#11 := by
    intro h
    rw [h, BitVec.toNat_zero] at hexponent
    omega
  have hones : BitVec.ofNat 11 (e + 1023 + 52).toNat ≠ -1#11 := by
    intro h
    rw [h] at hexponent
    have : (2047 : Nat) = (e + 1023 + 52).toNat := hexponent
    omega
  have hmantissa : (1#1 ++ BitVec.ofNat 52 m).toNat = m := by
    rw [BitVec.toNat_append, ← Nat.shiftLeft_add_eq_or_of_lt (BitVec.isLt _), BitVec.toNat_ofNat, BitVec.toNat_ofNat]
    omega
  have hpack : Float.Model.UnpackedFloat.pack Format.binary64 (.finite s m e hm) =
      packComponents Format.binary64 s (BitVec.ofNat 11 (e + 1023 + 52).toNat) (BitVec.ofNat 52 m) := by
    change (if 2 ^ 11 ≤ (e + 1023 + 52).toNat + 1 then _ else if m.log2 + 1 = 53 then _ else _) = _
    rw [if_neg (by omega), if_pos (by omega)]
    rfl
  change Float.Model.UnpackedFloat.unpack Format.binary64
    (Float.Model.UnpackedFloat.pack Format.binary64 (.finite s m e hm)) = _
  rw [hpack]
  unfold Float.Model.UnpackedFloat.unpack
  simp only [unpackExponent_packComponents, unpackMantissa_packComponents, unpackSign_packComponents, hones,
    if_false, hzero, hexponent, hmantissa, Sign.ofBitVec_toBitVec]
  congr 1
  change ((e + 1023 + 52).toNat : Int) - (1023 + 52) = e
  omega

/-- Whether an unpacked double is zero or normal, and stands for an integer. -/
inductive Shows : UnpackedFloat → Int → Prop
  | zero : Shows (.zero .positive) 0
  | positive {m : Nat} {e : Int} {value : Nat} (h : Stands m e value) (hm : 0 < m) :
      Shows (.finite .positive m e hm) value
  | negative {m : Nat} {e : Int} {value : Nat} (h : Stands m e value) (hm : 0 < m) :
      Shows (.finite .negative m e hm) (-value)

/-- A word becomes the double for its nearest integer. -/
theorem shows_ofInt64 (w : Int64) : Shows (Float.Model.ofInt64 w).unpack (nearest w.toInt) := by
  have hlow := w.le_toInt
  have hhigh := w.toInt_lt
  change Shows (Float.Model.pack (UnpackedFloat.normalize Format.binary64 w.toInt 0 .positive)).unpack _
  generalize w.toInt = n at hlow hhigh
  unfold UnpackedFloat.normalize nearest
  rcases lt_trichotomy n 0 with hn | rfl | hn
  · rw [compare_lt_iff_lt.mpr hn]
    obtain ⟨m, e, hm, hround, hstands⟩ := round_eq .negative (n := (-n).toNat) (by omega) (by omega)
    simp only [hround]
    rw [unpack_pack _ hstands, Int.sign_eq_neg_one_of_neg hn, Int.neg_one_mul, show n.natAbs = (-n).toNat by omega]
    exact .negative hstands hm
  · exact .zero
  · rw [compare_gt_iff_gt.mpr hn]
    obtain ⟨m, e, hm, hround, hstands⟩ := round_eq .positive (n := n.toNat) (by omega) (by omega)
    simp only [hround]
    rw [unpack_pack _ hstands, Int.sign_eq_one_of_pos hn, Int.one_mul, show n.natAbs = n.toNat by omega]
    exact .positive hstands hm

/-! ## Comparing doubles -/

theorem Stands.pos (h : Stands m e value) : 0 < value := by
  have hm : 0 < m * 2 ^ (e + 52).toNat := Nat.mul_pos (Nat.lt_of_lt_of_le (by norm_num) h.least) (Nat.two_pow_pos _)
  rw [h.value] at hm
  exact Nat.pos_of_mul_pos_right hm

theorem Stands.lt_of_exponent {e' : Int} (h : Stands m e value)
    (h' : Stands m' e' value') (hlt : e < e') : value < value' := by
  have hlow := h.low
  refine Nat.lt_of_mul_lt_mul_right (a := 2 ^ 52) ?_
  calc value * 2 ^ 52 = m * 2 ^ (e + 52).toNat := h.value.symm
    _ < 2 ^ 53 * 2 ^ (e + 52).toNat := Nat.mul_lt_mul_of_pos_right h.most (Nat.two_pow_pos _)
    _ = 2 ^ 52 * 2 ^ ((e + 52).toNat + 1) := by rw [Nat.pow_succ, Nat.pow_succ]; ring
    _ ≤ 2 ^ 52 * 2 ^ (e' + 52).toNat := Nat.mul_le_mul_left _ (Nat.pow_le_pow_right (by norm_num) (by omega))
    _ ≤ m' * 2 ^ (e' + 52).toNat := Nat.mul_le_mul_right _ h'.least
    _ = value' * 2 ^ 52 := h'.value

theorem Stands.lt_of_mantissa (h : Stands m e value) (h' : Stands m' e value') (hlt : m < m') : value < value' := by
  refine Nat.lt_of_mul_lt_mul_right (a := 2 ^ 52) ?_
  rw [← h.value, ← h'.value]
  exact Nat.mul_lt_mul_of_pos_right hlt (Nat.two_pow_pos _)

theorem Stands.compare_eq {e' : Int} (h : Stands m e value)
    (h' : Stands m' e' value') : (compare e e').then (compare m m') = compare value value' := by
  rcases lt_trichotomy e e' with he | rfl | he
  · rw [compare_lt_iff_lt.mpr he, compare_lt_iff_lt.mpr (h.lt_of_exponent h' he)]
    rfl
  · rw [compare_eq_iff_eq.mpr rfl]
    rcases lt_trichotomy m m' with hm | rfl | hm
    · rw [compare_lt_iff_lt.mpr hm, compare_lt_iff_lt.mpr (h.lt_of_mantissa h' hm)]
      rfl
    · have hvalue : value = value' := Nat.eq_of_mul_eq_mul_right (Nat.two_pow_pos 52) (h.value.symm.trans h'.value)
      rw [compare_eq_iff_eq.mpr rfl, compare_eq_iff_eq.mpr hvalue]
      rfl
    · rw [compare_gt_iff_gt.mpr hm, compare_gt_iff_gt.mpr (h'.lt_of_mantissa h hm)]
      rfl
  · rw [compare_gt_iff_gt.mpr he, compare_gt_iff_gt.mpr (h'.lt_of_exponent h he)]
    rfl

/-- Doubles compare as the integers that they stand for. -/
theorem Shows.compare_eq {f f' : UnpackedFloat} {n n' : Int} (h : Shows f n) (h' : Shows f' n') :
    f.compare f' = some (compare n n') := by
  cases h with
  | zero =>
    cases h' with
    | zero => rfl
    | positive h' => exact congrArg some (compare_lt_iff_lt.mpr (by have := h'.pos; omega)).symm
    | negative h' => exact congrArg some (compare_gt_iff_gt.mpr (by have := h'.pos; omega)).symm
  | positive h =>
    have hpos := h.pos
    cases h' with
    | zero => exact congrArg some (compare_gt_iff_gt.mpr (by omega)).symm
    | positive h' =>
      refine congrArg some ((h.compare_eq h').trans ?_)
      simp only [compare, compareOfLessAndEq, Nat.cast_lt, Nat.cast_inj]
    | negative h' => exact congrArg some (compare_gt_iff_gt.mpr (by have := h'.pos; omega)).symm
  | negative h =>
    have hpos := h.pos
    cases h' with
    | zero => exact congrArg some (compare_lt_iff_lt.mpr (by omega)).symm
    | positive h' => exact congrArg some (compare_lt_iff_lt.mpr (by have := h'.pos; omega)).symm
    | negative h' =>
      refine (congrArg (fun o => some (Ordering.swap o)) (h.compare_eq h')).trans (congrArg some ?_)
      rw [← Std.OrientedCmp.eq_swap]
      simp only [compare, compareOfLessAndEq, neg_lt_neg_iff, neg_inj, Nat.cast_lt, Nat.cast_inj, eq_comm]

/-! ## Nearest numbers keep their order -/

theorem roundedQuotient_mono {n' : Nat} (d : Nat) (h : n ≤ n') : roundedQuotient n d ≤ roundedQuotient n' d := by
  have hquotient : n / d ≤ n' / d := Nat.div_le_div_right h
  have hn := Nat.div_add_mod n d
  have hn' := Nat.div_add_mod n' d
  unfold roundedQuotient
  rcases Nat.lt_or_eq_of_le hquotient with hlt | heq
  · split_ifs <;> omega
  · rw [heq] at hn ⊢
    split_ifs <;> omega

theorem nearestNat_bounds (hn : n ≠ 0) : 2 ^ n.log2 ≤ nearestNat n ∧ nearestNat n ≤ 2 ^ (n.log2 + 1) := by
  rcases Nat.le_total n.log2 52 with hle | hle
  · rw [nearestNat, Nat.sub_eq_zero_of_le hle, Nat.pow_zero, roundedQuotient_one, Nat.mul_one]
    exact ⟨Nat.log2_self_le hn, Nat.lt_log2_self.le⟩
  · obtain ⟨k, hk⟩ := Nat.exists_eq_add_of_le hle
    obtain ⟨hleast, hmost⟩ := roundedQuotient_bounds hk
    rw [nearestNat, hk, Nat.add_sub_cancel_left, Nat.pow_add, show 52 + k + 1 = 53 + k by omega, Nat.pow_add]
    exact ⟨Nat.mul_le_mul_right _ hleast, Nat.mul_le_mul_right _ hmost⟩

theorem nearestNat_mono {n' : Nat} (h : n ≤ n') : nearestNat n ≤ nearestNat n' := by
  rcases Nat.eq_zero_or_pos n with rfl | hpos
  · exact Nat.zero_le _
  have hn : n ≠ 0 := hpos.ne'
  have hn' : n' ≠ 0 := by omega
  have hlog : n.log2 ≤ n'.log2 := (Nat.le_log2 hn').mpr ((Nat.log2_self_le hn).trans h)
  rcases Nat.lt_or_eq_of_le hlog with hlt | heq
  · exact (nearestNat_bounds hn).2.trans ((Nat.pow_le_pow_right Nat.two_pos hlt).trans (nearestNat_bounds hn').1)
  · rw [nearestNat, nearestNat, heq]
    exact Nat.mul_le_mul_right _ (roundedQuotient_mono _ h)

theorem nearest_mono {n n' : Int} (h : n ≤ n') : nearest n ≤ nearest n' := by
  unfold nearest
  rcases lt_trichotomy n 0 with hn | rfl | hn
  · rcases lt_trichotomy n' 0 with hn' | rfl | hn'
    · have := nearestNat_mono (show n'.natAbs ≤ n.natAbs by omega)
      rw [Int.sign_eq_neg_one_of_neg hn, Int.sign_eq_neg_one_of_neg hn']
      omega
    · rw [Int.sign_eq_neg_one_of_neg hn, Int.sign_zero]
      omega
    · rw [Int.sign_eq_neg_one_of_neg hn, Int.sign_eq_one_of_pos hn']
      omega
  · rw [Int.sign_zero, Int.zero_mul]
    exact Int.mul_nonneg (Int.sign_nonneg_iff.mpr h) (Int.natCast_nonneg _)
  · have := nearestNat_mono (show n.natAbs ≤ n'.natAbs by omega)
    rw [Int.sign_eq_one_of_pos hn, Int.sign_eq_one_of_pos (hn.trans_le h)]
    omega

theorem nearest_of_le {n : Int} (h : n.natAbs ≤ 2 ^ 53) : nearest n = n := by
  have hnat : nearestNat n.natAbs = n.natAbs := by
    rcases Nat.lt_or_eq_of_le h with hlt | heq
    · have hlog : n.natAbs.log2 < 53 := by
        rw [Nat.log2_eq_log_two]
        exact Nat.log_lt_of_lt_pow' (by decide) hlt
      rw [nearestNat, Nat.sub_eq_zero_of_le (Nat.le_of_lt_succ hlog), Nat.pow_zero, roundedQuotient_one, Nat.mul_one]
    · rw [heq]
      decide
  rw [nearest, hnat, Int.sign_mul_natAbs]

/-! ## Comparisons -/

/-- The comparisons of two numbers. -/
inductive Comparison where
  | lt | le | gt | ge | eq | ne
  deriving DecidableEq, Repr

namespace Comparison

/-- The operator of an expression. -/
def op : Comparison → BinaryOp
  | lt => .lt
  | le => .le
  | gt => .gt
  | ge => .ge
  | eq => .eq
  | ne => .ne

/-- Whether a comparison holds between two integers. -/
def holds : Comparison → Int → Int → Bool
  | lt, m, n => m < n
  | le, m, n => m ≤ n
  | gt, m, n => n < m
  | ge, m, n => n ≤ m
  | eq, m, n => m = n
  | ne, m, n => m ≠ n

end Comparison

section Words

open Number (floatOfWord)

variable (a b : Int64)

theorem compare_words : (floatOfWord a).toModel.unpack.compare (floatOfWord b).toModel.unpack =
    some (compare (nearest a.toInt) (nearest b.toInt)) :=
  (shows_ofInt64 a).compare_eq (shows_ofInt64 b)

theorem floatOfWord_lt : floatOfWord a < floatOfWord b ↔ nearest a.toInt < nearest b.toInt := by
  change decide ((_ == some Ordering.lt) = true) = true ↔ _
  rw [decide_eq_true_eq, compare_words, beq_iff_eq, Option.some_inj, compare_lt_iff_lt]

theorem floatOfWord_le : floatOfWord a ≤ floatOfWord b ↔ nearest a.toInt ≤ nearest b.toInt := by
  change decide ((Option.any Ordering.isLE _) = true) = true ↔ _
  rw [decide_eq_true_eq, compare_words, Option.any_some, Std.isLE_compare]

theorem floatOfWord_beq : (floatOfWord a == floatOfWord b) = decide (nearest a.toInt = nearest b.toInt) := by
  change (_ == some Ordering.eq) = _
  rw [compare_words, Bool.eq_iff_iff, beq_iff_eq, Option.some_inj, compare_eq_iff_eq, decide_eq_true_eq]

theorem Comparison.apply_words (c : Comparison) : c.op.apply (.ofWord a) (.ofWord b) =
    .ok (.ofBool (c.holds (nearest a.toInt) (nearest b.toInt))) := by
  have hok {x y : Bool} (h : x = y) : (.ok (.ofBool x) : Except Expression.Error Value) = .ok (.ofBool y) := by rw [h]
  have heq := floatOfWord_beq a b
  cases c with
  | lt => exact hok (decide_eq_decide.mpr (floatOfWord_lt a b))
  | le => exact hok (decide_eq_decide.mpr (floatOfWord_le a b))
  | gt => exact hok (decide_eq_decide.mpr (floatOfWord_lt b a))
  | ge => exact hok (decide_eq_decide.mpr (floatOfWord_le b a))
  | eq => exact hok heq
  | ne => exact hok ((congrArg not heq).trans (decide_not).symm)

end Words

/-- Comparing nearest integers is the same as comparing the integers exactly if these are equal or the nearest
ones differ. -/
theorem Comparison.holds_nearest_iff (m n : Int) :
    (∀ c : Comparison, c.holds (nearest m) (nearest n) = c.holds m n) ↔ m = n ∨ nearest m ≠ nearest n := by
  refine ⟨fun h => ?_, ?_⟩
  · have heq := decide_eq_decide.mp (h .eq)
    by_cases hn : nearest m = nearest n
    · exact .inl (heq.mp hn)
    · exact .inr hn
  · rintro (rfl | hne) c
    · cases c <;> simp [holds]
    have hlt : m < n ↔ nearest m < nearest n :=
      ⟨fun h => lt_of_le_of_ne (nearest_mono h.le) hne, fun h => lt_of_not_ge fun hle => h.not_ge (nearest_mono hle)⟩
    have hgt : n < m ↔ nearest n < nearest m :=
      ⟨fun h => lt_of_le_of_ne (nearest_mono h.le) hne.symm,
        fun h => lt_of_not_ge fun hle => h.not_ge (nearest_mono hle)⟩
    cases c <;> simp only [holds, decide_eq_decide, ne_eq] <;> omega

namespace Expression

/-- A comparison of two operands that are words gives one or zero as it holds between their nearest integers or
not. All comparisons of two words are exact if and only if these are equal or have different nearest integers, so
all are exact up to `2 ^ 53`. -/
theorem comparisons_of_nearest {resolve : Resolver} {mode : Mode} {l r : Tree} {a b : Int64}
    (hl : l.evaluate resolve mode = .ok (.resolved (.ofWord a)))
    (hr : r.evaluate resolve mode = .ok (.resolved (.ofWord b))) :
    (∀ (c : Comparison) (e : Expression) (start stop : Nat), e.parts = (Tree.binary c.op start stop l r).postorder →
      e.evaluate resolve mode = .ok (.resolved (.ofBool (c.holds (nearest a.toInt) (nearest b.toInt))))) ∧
    ((∀ c : Comparison, c.holds (nearest a.toInt) (nearest b.toInt) = c.holds a.toInt b.toInt) ↔
      a = b ∨ nearest a.toInt ≠ nearest b.toInt) ∧
    (a.toInt.natAbs ≤ 2 ^ 53 → b.toInt.natAbs ≤ 2 ^ 53 →
      ∀ c : Comparison, c.holds (nearest a.toInt) (nearest b.toInt) = c.holds a.toInt b.toInt) := by
  refine ⟨fun c e start stop he => ?_, ?_, fun ha hb c => ?_⟩
  · have hevaluate : e.evaluate resolve mode = (Tree.binary c.op start stop l r).evaluate resolve mode := by
      rw [← evaluate_postorder e.text _ resolve mode, ← he]
    rw [hevaluate, Tree.evaluate, hl, hr]
    change ((c.op.apply (.ofWord a) (.ofWord b)).map Outcome.resolved) = _
    rw [c.apply_words]
    rfl
  · rw [Comparison.holds_nearest_iff, Int64.toInt_inj]
  · rw [nearest_of_le ha, nearest_of_le hb]

/-- Three is more than a half step beyond `2 ^ 53`, so there it counts. -/
theorem comparisons_of_nearest_beyond : ∃ e : Expression, parse "9007199254740992<9007199254740995" = .ok e ∧
    e.evaluate (fun _ _ _ => none) .final = .ok (.resolved (.ofWord 1)) := by
  refine ⟨_, rfl, ?_⟩
  exact (comparisons_of_nearest (l := .leaf (.number (.int 9007199254740992)) 0 16)
    (r := .leaf (.number (.int 9007199254740995)) 17 33) rfl rfl).1 .lt _ 16 17 rfl

/-- The first integer that is no double counts as the one before it. -/
theorem neighbours_equal : ∃ e : Expression, parse "9007199254740992==9007199254740993" = .ok e ∧
    e.evaluate (fun _ _ _ => none) .final = .ok (.resolved (.ofWord 1)) ∧
    Comparison.eq.holds 9007199254740992 9007199254740993 = false := by
  refine ⟨_, rfl, ?_, rfl⟩
  rfl

end Expression

end CrossAssembler
