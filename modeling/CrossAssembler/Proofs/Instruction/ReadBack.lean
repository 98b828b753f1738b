import CrossAssembler.Instruction.Layout
import CrossAssembler.Proofs.Results

/-!
# Reading operands back from bytes

Principal results: `length_of_encode` — an instruction has the size its encoding promises;
`operands_of_encode` — its operands are read back up to their moduli.
-/

namespace CrossAssembler

open Instruction (Error)

/-! ## Numbers in bytes -/

/-- The unsigned number that bytes stand for, the lowest byte first. -/
def unsignedOf : List UInt8 → Int
  | [] => 0
  | b :: bs => b.toNat + 256 * unsignedOf bs

/-- The signed number that bytes stand for, the lowest byte first. -/
def signedOf (bs : List UInt8) : Int := Int.bmod (unsignedOf bs) (256 ^ bs.length)

theorem toNat_ofNat_emod (value : Int) : ((UInt8.ofNat (value % 256).toNat).toNat : Int) = value % 256 := by
  have h0 : 0 ≤ value % 256 := Int.emod_nonneg _ (by decide)
  have h1 : value % 256 < 256 := Int.emod_lt_of_pos _ (by decide)
  rw [UInt8.toNat_ofNat']
  omega

theorem unsignedOf_littleEndian (width : Nat) (value : Int) :
    unsignedOf (littleEndian width value) = value % 256 ^ width := by
  induction width generalizing value with
  | zero => simp [littleEndian, unsignedOf]
  | succ width ih =>
    have hdiv : value / 256 / 256 ^ width = value / (256 * 256 ^ width) :=
      Int.ediv_ediv_of_nonneg (by decide)
    rw [littleEndian, unsignedOf, ih, toNat_ofNat_emod, pow_succ', Int.emod_def value 256,
      Int.emod_def (value / 256), Int.emod_def value (256 * 256 ^ width), hdiv]
    ring

theorem two_pow_eight_mul (width : Nat) : 2 ^ (8 * width) = 256 ^ width := by
  rw [pow_mul]
  rfl

theorem signedOf_littleEndian {width : Nat} (hw : 0 < width) {value : Int}
    (hlo : -(2 ^ (8 * width - 1)) ≤ value) (hhi : value ≤ 2 ^ (8 * width - 1) - 1) :
    signedOf (littleEndian width value) = value := by
  have hhalf : 256 ^ width = 2 * 2 ^ (8 * width - 1) := by
    rw [← two_pow_eight_mul, ← pow_succ']
    congr 1
    omega
  have hcast : ((256 ^ width : Nat) : Int) = 256 ^ width := by push_cast; rfl
  rw [signedOf, unsignedOf_littleEndian, littleEndian_length, ← hcast, Int.emod_bmod, hhalf]
  exact Int.bmod_eq_of_le (by push_cast; omega) (by push_cast; omega)

theorem unsignedOf_singleton (b : UInt8) : unsignedOf [b] = b.toNat := by
  simp [unsignedOf]

/-! ## Bits in the opcode -/

/-- Bits set where another byte has none are what tells the two apart. -/
theorem or_xor_cancel {a b : UInt8} (h : a &&& b = 0) : (a ||| b) ^^^ a = b := by
  rw [← UInt8.toBitVec_inj] at h ⊢
  ext i hi
  have hbit := congrArg (fun x : BitVec 8 => x[i]) h
  simp only [UInt8.toBitVec_and, UInt8.toBitVec_or, UInt8.toBitVec_xor, BitVec.getElem_and,
    BitVec.getElem_or, BitVec.getElem_xor] at hbit ⊢
  cases ha : a.toBitVec[i] <;> cases hb : b.toBitVec[i] <;> simp_all

theorem modify_concat (f : UInt8 → UInt8) (op : UInt8) (ops : List UInt8) :
    (ops ++ [op]).modify ops.length f = ops ++ [f op] := by
  induction ops with
  | nil => rfl
  | cons o ops ih => simp [List.modify_succ_cons, ih]

namespace Layout

/-- The operand bits in the first byte of an instruction. -/
def bitsInFirst (e : Encoding) (bytes : List UInt8) : Nat :=
  (bytes.headD 0 ^^^ e.opcode.headD 0).toNat

/-- The operand bits in the last byte of an instruction that is an opcode only. -/
def bitsInLast (e : Encoding) (bytes : List UInt8) : Nat :=
  (bytes.getLastD 0 ^^^ e.opcode.getLastD 0).toNat

theorem length_setInFirst (bits : UInt8) (opcode : List UInt8) : (setInFirst bits opcode).length = opcode.length := by
  simp [setInFirst]

theorem length_setInLast (bits : UInt8) (opcode : List UInt8) : (setInLast bits opcode).length = opcode.length := by
  simp [setInLast]

theorem drop_setInFirst_append (bits : UInt8) (opcode rest : List UInt8) :
    (setInFirst bits opcode ++ rest).drop opcode.length = rest :=
  List.drop_left' (length_setInFirst bits opcode)

theorem bitsInFirst_setInFirst {e : Encoding} {bits : UInt8} (hne : e.opcode ≠ [])
    (hclear : e.opcode.headD 0 &&& bits = 0) (rest : List UInt8) :
    bitsInFirst e (setInFirst bits e.opcode ++ rest) = bits.toNat := by
  obtain ⟨op, ops, hop⟩ := List.exists_cons_of_ne_nil hne
  rw [hop, List.headD_cons] at hclear
  rw [bitsInFirst, hop]
  exact congrArg UInt8.toNat (or_xor_cancel hclear)

theorem bitsInLast_setInLast {e : Encoding} {bits : UInt8} (hne : e.opcode ≠ [])
    (hclear : e.opcode.getLastD 0 &&& bits = 0) :
    bitsInLast e (setInLast bits e.opcode) = bits.toNat := by
  obtain ⟨ops, op, hop⟩ := (List.eq_nil_or_concat' e.opcode).resolve_left hne
  rw [hop, List.getLastD_concat] at hclear
  rw [bitsInLast, hop, setInLast, List.length_append, List.length_singleton, Nat.add_sub_cancel,
    modify_concat, List.getLastD_concat, List.getLastD_concat]
  exact congrArg UInt8.toNat (or_xor_cancel hclear)

end Layout

/-- Whether a byte is clear at each place where a number up to `limit` can have bits once it is moved
up by `shift`. -/
def HasRoom (op : UInt8) (shift limit : Nat) : Prop :=
  shift < 8 ∧ limit * 2 ^ shift < 256 ∧ ∀ bit ≤ limit, op &&& UInt8.ofNat (bit * 2 ^ shift) = 0

instance (op : UInt8) (shift limit : Nat) : Decidable (HasRoom op shift limit) :=
  inferInstanceAs (Decidable (_ ∧ _ ∧ _))

namespace HasRoom

variable {op bit : UInt8} {shift limit : Nat}

theorem toNat_shiftLeft (h : HasRoom op shift limit) (hbit : bit.toNat ≤ limit) :
    (bit <<< UInt8.ofNat shift).toNat = bit.toNat * 2 ^ shift := by
  have hlt : bit.toNat * 2 ^ shift < 256 :=
    Nat.lt_of_le_of_lt (Nat.mul_le_mul_right _ hbit) h.2.1
  have hshift : (UInt8.ofNat shift).toNat % 8 = shift := by
    rw [UInt8.toNat_ofNat']
    have := h.1
    omega
  rw [UInt8.toNat_shiftLeft, hshift, Nat.shiftLeft_eq]
  exact Nat.mod_eq_of_lt hlt

theorem and_shiftLeft (h : HasRoom op shift limit) (hbit : bit.toNat ≤ limit) :
    op &&& bit <<< UInt8.ofNat shift = 0 := by
  have heq : bit <<< UInt8.ofNat shift = UInt8.ofNat (bit.toNat * 2 ^ shift) := by
    rw [← h.toNat_shiftLeft hbit, UInt8.ofNat_toNat]
  rw [heq]
  exact h.2.2 bit.toNat hbit

end HasRoom

/-! ## Operands -/

/-- Whether an encoding has the width that a layout needs, and clear bits where the layout stores
operands in the opcode. -/
def Encoding.Suits (e : Encoding) : Layout → Prop
  | .fixed => e.width = 0
  | .value => True
  | .relative => 0 < e.width
  | .bitOpcode shift limit => e.width = 0 ∧ e.opcode ≠ [] ∧ HasRoom (e.opcode.getLastD 0) shift limit
  | .restart => e.width = 0 ∧ e.opcode ≠ [] ∧ HasRoom (e.opcode.headD 0) 3 7
  | .highPage | .signedByte => e.width = 1
  | .directBit => e.width = 1 ∧ e.opcode ≠ [] ∧ HasRoom (e.opcode.headD 0) 5 7
  | .directBitRelative => e.width = 2 ∧ e.opcode ≠ [] ∧ HasRoom (e.opcode.headD 0) 5 7
  | .pair _ | .directRelative | .memoryBit => e.width = 2

instance (e : Encoding) : (layout : Layout) → Decidable (e.Suits layout)
  | .fixed | .highPage | .signedByte | .pair _ | .directRelative | .memoryBit =>
    inferInstanceAs (Decidable (_ = _))
  | .value => .isTrue trivial
  | .relative => inferInstanceAs (Decidable (_ < _))
  | .bitOpcode .. | .restart | .directBit | .directBitRelative =>
    inferInstanceAs (Decidable (_ ∧ _ ∧ _))

namespace Layout

variable {limit : Nat}

/-- The modulus up to which each operand is stored; zero for one that is stored exactly. -/
def moduli (width : Nat) : Layout → List Int
  | fixed => []
  | value => [256 ^ width]
  | highPage => [256]
  | relative | bitOpcode .. | restart | signedByte => [0]
  | pair _ => [256, 256]
  | directBit | directRelative => [256, 0]
  | directBitRelative => [256, 0, 0]
  | memoryBit => [0, 0]

theorem length_moduli (width : Nat) (layout : Layout) : (layout.moduli width).length = layout.placeholders := by
  cases layout <;> rfl

/-- Operands up to the moduli of a layout. -/
def reduced (layout : Layout) (width : Nat) (values : List Int64) : List Int :=
  List.zipWith (fun value modulus => value.toInt % modulus) values (layout.moduli width)

/-- The operands in the bytes of an instruction at address `pc`, each up to its modulus. -/
def operands (layout : Layout) (e : Encoding) (bytes : List UInt8) (pc : Int64) : List Int :=
  let next : Int := pc.toInt + e.length
  let after := bytes.drop e.opcode.length
  match layout with
  | fixed => []
  | value | highPage => [unsignedOf after]
  | relative => [next + signedOf after]
  | pair false => [unsignedOf (after.take 1), unsignedOf (after.drop 1)]
  | pair true => [unsignedOf (after.drop 1), unsignedOf (after.take 1)]
  | bitOpcode shift _ => [(bitsInLast e bytes / 2 ^ shift : Nat)]
  | restart => [(bitsInFirst e bytes : Nat)]
  | signedByte => [signedOf after]
  | directBit => [unsignedOf after, (bitsInFirst e bytes / 32 : Nat)]
  | directBitRelative =>
    [unsignedOf (after.take 1), (bitsInFirst e bytes / 32 : Nat), next + signedOf (after.drop 1)]
  | directRelative => [unsignedOf (after.take 1), next + signedOf (after.drop 1)]
  | memoryBit => [unsignedOf after % 0x2000, unsignedOf after / 0x2000]

/-! ## What each check leaves -/

theorem byte_eq_ok {value : Int64} {b : UInt8} (h : byte value = .ok b) : (b.toNat : Int) = value.toInt % 256 := by
  unfold byte at h
  split at h
  · cases h
    exact toNat_ofNat_emod _
  · cases h

theorem bitNumber_eq_ok {value : Int64} {b : UInt8} (hlimit : limit < 256)
    (h : bitNumber value limit = .ok b) : (b.toNat : Int) = value.toInt ∧ b.toNat ≤ limit := by
  unfold bitNumber at h
  split at h
  · rename_i hrange
    cases h
    rw [UInt8.toNat_ofNat']
    omega
  · cases h

theorem distance_eq_ok {target : Int64} {next d : Int} {width : Nat} (hw : 0 < width)
    (h : distance target next width = .ok d) :
    next + signedOf (littleEndian width d) = target.toInt := by
  unfold distance at h
  simp only at h
  split at h
  · rename_i hrange
    cases h
    have hcast : ((Nat.pow 2 (8 * width - 1) : Nat) : Int) = 2 ^ (8 * width - 1) := by
      exact Nat.cast_pow 2 _
    rw [hcast] at hrange
    rw [signedOf_littleEndian hw hrange.1 hrange.2]
    omega
  · cases h

/-! ## Instructions -/

variable {layout : Layout} {e : Encoding} {values : List Int64} {pc : Int64} {bytes : List UInt8}

/-- **An instruction has the size its encoding promises.** -/
theorem length_of_encode (hsuits : e.Suits layout) (h : layout.encode e values pc = .ok bytes) :
    bytes.length = e.length := by
  unfold encode at h
  unfold Encoding.Suits at hsuits
  unfold Encoding.length
  cases layout with
  | fixed =>
    cases h
    omega
  | value =>
    simp only at h
    split at h
    · cases h
      rw [List.length_append, littleEndian_length]
    · cases h
  | relative =>
    obtain ⟨d, -, h⟩ := exists_of_bind_ok h
    cases h
    rw [List.length_append, littleEndian_length]
  | pair reversed =>
    obtain ⟨first, -, h⟩ := exists_of_bind_ok h
    obtain ⟨second, -, h⟩ := exists_of_bind_ok h
    cases h
    cases reversed <;> simp [hsuits]
  | bitOpcode shift limit =>
    obtain ⟨bit, -, h⟩ := exists_of_bind_ok h
    cases h
    rw [length_setInLast, hsuits.1, Nat.add_zero]
  | restart =>
    simp only at h
    split at h
    · cases h
      rw [length_setInFirst, hsuits.1, Nat.add_zero]
    · cases h
  | highPage | signedByte =>
    simp only at h
    split at h
    · cases h
      rw [List.length_append, littleEndian_length, hsuits]
    · cases h
  | directBit =>
    obtain ⟨address, -, h⟩ := exists_of_bind_ok h
    obtain ⟨bit, -, h⟩ := exists_of_bind_ok h
    cases h
    rw [List.length_append, length_setInFirst, hsuits.1, List.length_singleton]
  | directBitRelative =>
    obtain ⟨address, -, h⟩ := exists_of_bind_ok h
    obtain ⟨bit, -, h⟩ := exists_of_bind_ok h
    obtain ⟨d, -, h⟩ := exists_of_bind_ok h
    cases h
    rw [List.length_append, length_setInFirst, hsuits.1, List.length_cons, littleEndian_length]
  | directRelative =>
    obtain ⟨address, -, h⟩ := exists_of_bind_ok h
    obtain ⟨d, -, h⟩ := exists_of_bind_ok h
    cases h
    rw [List.length_append, hsuits, List.length_cons, littleEndian_length]
  | memoryBit =>
    simp only at h
    split at h
    · obtain ⟨bit, -, h⟩ := exists_of_bind_ok h
      cases h
      rw [List.length_append, littleEndian_length, hsuits]
    · cases h

theorem bitsInFirst_shiftLeft {bit : UInt8} (hne : e.opcode ≠ [])
    (hroom : HasRoom (e.opcode.headD 0) 5 7) (hbit : bit.toNat ≤ 7) (rest : List UInt8) :
    bitsInFirst e (setInFirst (bit <<< 5) e.opcode ++ rest) / 32 = bit.toNat := by
  have hbits := bitsInFirst_setInFirst hne (hroom.and_shiftLeft hbit) rest
  rw [hroom.toNat_shiftLeft hbit] at hbits
  change bitsInFirst e (setInFirst (bit <<< UInt8.ofNat 5) e.opcode ++ rest) / 32 = bit.toNat
  omega

theorem bitsInLast_shiftLeft {bit : UInt8} {shift : Nat} (hne : e.opcode ≠ [])
    (hroom : HasRoom (e.opcode.getLastD 0) shift limit) (hbit : bit.toNat ≤ limit) :
    bitsInLast e (setInLast (bit <<< UInt8.ofNat shift) e.opcode) / 2 ^ shift = bit.toNat := by
  rw [bitsInLast_setInLast hne (hroom.and_shiftLeft hbit), hroom.toNat_shiftLeft hbit]
  exact Nat.mul_div_cancel _ (Nat.two_pow_pos shift)

theorem limit_lt_of_hasRoom {op : UInt8} {shift : Nat} (h : HasRoom op shift limit) : limit < 256 :=
  Nat.lt_of_le_of_lt (Nat.le_mul_of_pos_right _ (Nat.two_pow_pos shift)) h.2.1

/-- A restart vector is a multiple of eight, so it takes the bits that eight numbers from bit 3 on do. -/
theorem bitsInFirst_restart {vector : Int} (hne : e.opcode ≠ [])
    (hroom : HasRoom (e.opcode.headD 0) 3 7) (h0 : 0 ≤ vector) (h1 : vector ≤ 0x38)
    (h8 : vector % 8 = 0) :
    (bitsInFirst e (setInFirst (UInt8.ofNat vector.toNat) e.opcode) : Int) = vector := by
  have hvector : vector.toNat = vector.toNat / 8 * 2 ^ 3 := by omega
  have hclear : e.opcode.headD 0 &&& UInt8.ofNat vector.toNat = 0 := by
    rw [hvector]
    exact hroom.2.2 _ (by omega)
  have hbits := bitsInFirst_setInFirst hne hclear []
  rw [List.append_nil, UInt8.toNat_ofNat'] at hbits
  omega

/-- **The operands of an instruction are read back from its bytes, up to their moduli.** -/
theorem operands_of_encode (hsuits : e.Suits layout) (hlen : values.length = layout.placeholders)
    (h : layout.encode e values pc = .ok bytes) :
    layout.operands e bytes pc = layout.reduced e.width values := by
  unfold encode at h
  unfold Encoding.Suits at hsuits
  cases layout with
  | fixed =>
    rw [List.eq_nil_of_length_eq_zero hlen]
    rfl
  | value =>
    obtain ⟨v, rfl⟩ := List.length_eq_one_iff.mp hlen
    simp only at h
    split at h
    · cases h
      simp only [operands, reduced, moduli, List.drop_left, unsignedOf_littleEndian]
      rfl
    · cases h
  | relative =>
    obtain ⟨v, rfl⟩ := List.length_eq_one_iff.mp hlen
    obtain ⟨d, hd, h⟩ := exists_of_bind_ok h
    cases h
    simp only [operands, List.drop_left, distance_eq_ok hsuits hd]
    simp [reduced, moduli]
  | pair reversed =>
    obtain ⟨v, w, rfl⟩ := List.length_eq_two.mp hlen
    obtain ⟨first, hfirst, h⟩ := exists_of_bind_ok h
    obtain ⟨second, hsecond, h⟩ := exists_of_bind_ok h
    cases h
    have hv := byte_eq_ok hfirst
    have hw := byte_eq_ok hsecond
    cases reversed <;> simpa [operands, reduced, moduli, unsignedOf_singleton] using ⟨hv, hw⟩
  | bitOpcode shift limit =>
    obtain ⟨v, rfl⟩ := List.length_eq_one_iff.mp hlen
    obtain ⟨bit, hbit, h⟩ := exists_of_bind_ok h
    cases h
    obtain ⟨hv, hle⟩ := bitNumber_eq_ok (limit_lt_of_hasRoom hsuits.2.2) hbit
    simp only [operands, bitsInLast_shiftLeft hsuits.2.1 hsuits.2.2 hle]
    simpa [reduced, moduli] using hv
  | restart =>
    obtain ⟨v, rfl⟩ := List.length_eq_one_iff.mp hlen
    simp only at h
    split at h
    · rename_i hrange
      cases h
      simp only [operands, bitsInFirst_restart hsuits.2.1 hsuits.2.2 hrange.1 hrange.2.1 hrange.2.2]
      simp [reduced, moduli]
    · cases h
  | highPage =>
    obtain ⟨v, rfl⟩ := List.length_eq_one_iff.mp hlen
    simp only at h
    split at h
    · cases h
      simp only [operands, reduced, moduli, List.drop_left, unsignedOf_littleEndian, pow_one]
      rfl
    · cases h
  | signedByte =>
    obtain ⟨v, rfl⟩ := List.length_eq_one_iff.mp hlen
    simp only at h
    split at h
    · rename_i hrange
      cases h
      simp only [operands, List.drop_left]
      rw [signedOf_littleEndian Nat.one_pos hrange.1 hrange.2]
      simp [reduced, moduli]
    · cases h
  | directBit =>
    obtain ⟨v, w, rfl⟩ := List.length_eq_two.mp hlen
    obtain ⟨address, haddress, h⟩ := exists_of_bind_ok h
    obtain ⟨bit, hbit, h⟩ := exists_of_bind_ok h
    cases h
    obtain ⟨hw, hle⟩ := bitNumber_eq_ok (by decide) hbit
    simp only [operands, drop_setInFirst_append, unsignedOf_singleton, byte_eq_ok haddress,
      bitsInFirst_shiftLeft hsuits.2.1 hsuits.2.2 hle, hw]
    simp [reduced, moduli]
  | directBitRelative =>
    obtain ⟨v, w, x, rfl⟩ := List.length_eq_three.mp hlen
    obtain ⟨address, haddress, h⟩ := exists_of_bind_ok h
    obtain ⟨bit, hbit, h⟩ := exists_of_bind_ok h
    obtain ⟨d, hd, h⟩ := exists_of_bind_ok h
    cases h
    obtain ⟨hw, hle⟩ := bitNumber_eq_ok (by decide) hbit
    simp only [operands, drop_setInFirst_append, List.take_succ_cons, List.take_zero,
      List.drop_succ_cons, List.drop_zero, unsignedOf_singleton, byte_eq_ok haddress,
      bitsInFirst_shiftLeft hsuits.2.1 hsuits.2.2 hle, hw, distance_eq_ok Nat.one_pos hd]
    simp [reduced, moduli]
  | directRelative =>
    obtain ⟨v, w, rfl⟩ := List.length_eq_two.mp hlen
    obtain ⟨address, haddress, h⟩ := exists_of_bind_ok h
    obtain ⟨d, hd, h⟩ := exists_of_bind_ok h
    cases h
    simp only [operands, List.drop_left, List.take_succ_cons, List.take_zero, List.drop_succ_cons,
      List.drop_zero, unsignedOf_singleton, byte_eq_ok haddress, distance_eq_ok Nat.one_pos hd]
    simp [reduced, moduli]
  | memoryBit =>
    obtain ⟨v, w, rfl⟩ := List.length_eq_two.mp hlen
    simp only at h
    split at h
    · rename_i hrange
      obtain ⟨bit, hbit, h⟩ := exists_of_bind_ok h
      cases h
      obtain ⟨hw, hle⟩ := bitNumber_eq_ok (by decide) hbit
      simp only [List.getElem?_cons_zero, List.getElem?_cons_succ, Option.getD_some] at hrange hw
      have hfirst : (v.toInt + 0x2000 * bit.toNat) % 256 ^ 2 % 0x2000 = v.toInt := by omega
      have hsecond : (v.toInt + 0x2000 * bit.toNat) % 256 ^ 2 / 0x2000 = w.toInt := by omega
      simp only [operands, List.drop_left, unsignedOf_littleEndian, List.getElem?_cons_zero,
        Option.getD_some, hfirst, hsecond]
      simp [reduced, moduli]
    · cases h

end Layout

end CrossAssembler
