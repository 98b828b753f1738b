import CrossAssembler.Image
import Mathlib

/-!
# The image as a partial map

An image is what is left of all that was written since it was last cleared: at every offset the last
byte that was written there.

Principal results: `get?_run` — an offset has the byte of the latest call that gives it one;
`refines_map` — with when writing fails, how large the image gets, its range and its flat form.
-/

namespace CrossAssembler.Image

variable {i i' : Image} {offset : Int64} {cells : List Cell}

/-! ## One write -/

theorem getElem?_put (p : Nat) : ∀ (cells : List Cell) (bytes : Std.TreeMap Nat UInt8) (offset : Nat),
    (put bytes offset cells)[p]? = (if offset ≤ p then (cells[p - offset]?).join else none).or bytes[p]?
  | [], bytes, offset => by simp [put]
  | cell :: cells, bytes, offset => by
    have hshift : ¬ offset + 1 ≤ p ∨ p - offset = (p - (offset + 1)) + 1 := by omega
    cases cell with
    | none =>
      rw [put, getElem?_put p cells]
      grind
    | some b =>
      rw [put, getElem?_put p cells, Std.TreeMap.getElem?_insert]
      grind

theorem get?_write (h : i.write offset cells = .ok i') (p : Nat) : i'.get? p =
      (if offset.toInt ≤ p then (cells[((p : Int) - offset.toInt).toNat]?).join else none).or (i.get? p) := by
  unfold write at h
  split at h
  · rename_i hempty
    cases h
    rw [List.isEmpty_iff.mp hempty]
    simp
  split at h
  · cases h
  rename_i hpos
  simp only at h
  split at h
  · cases h
  · cases h
    have hnonneg : 0 ≤ offset.toInt := (Int64.le_iff_toInt_le ..).mp (Int64.not_lt.mp hpos)
    have hle : offset.toInt.toNat ≤ p ↔ offset.toInt ≤ p := by omega
    have hindex : p - offset.toInt.toNat = ((p : Int) - offset.toInt).toNat := by omega
    simp only [get?, getElem?_put, hle, hindex]

/-- Whether cells have no place at an offset: there are some, and they start before the first offset or go
past the limit. -/
def Refused (offset : Int64) (cells : List Cell) : Prop :=
  cells ≠ [] ∧ (offset.toInt < 0 ∨ limit < offset.toInt + cells.length)

instance (offset : Int64) (cells : List Cell) : Decidable (Refused offset cells) :=
  inferInstanceAs (Decidable (_ ∧ _))

theorem write_of_refused (i : Image) (h : Refused offset cells) : ∃ e, i.write offset cells = .error e := by
  obtain ⟨hcells, hplace⟩ := h
  unfold write
  rw [if_neg fun hempty => hcells (List.isEmpty_iff.mp hempty)]
  split
  · exact ⟨_, rfl⟩
  · rename_i hpos
    have hnonneg : 0 ≤ offset.toInt := (Int64.le_iff_toInt_le ..).mp (Int64.not_lt.mp hpos)
    rw [if_pos (show limit < offset.toInt.toNat + cells.length by omega)]
    exact ⟨_, rfl⟩

theorem write_of_not_refused (i : Image) (h : ¬ Refused offset cells) :
    ∃ i', i.write offset cells = .ok i' ∧ i'.size ≤ max i.size limit := by
  by_cases hcells : cells = []
  · exact ⟨i, by rw [write, hcells]; rfl, Nat.le_max_left _ _⟩
  have hplace : ¬ offset.toInt < 0 ∧ ¬ limit < offset.toInt + cells.length :=
    not_or.mp fun hplace => h ⟨hcells, hplace⟩
  have hpos : ¬ offset < 0 := fun hneg => hplace.1 ((Int64.lt_iff_toInt_lt ..).mp hneg)
  have hstop : ¬ limit < offset.toInt.toNat + cells.length := by omega
  refine ⟨⟨put i.bytes offset.toInt.toNat cells, max i.size (offset.toInt.toNat + cells.length)⟩, ?_, ?_⟩
  · unfold write
    rw [if_neg fun hempty => hcells (List.isEmpty_iff.mp hempty), if_neg hpos]
    simp only [if_neg hstop]
  · exact max_le_max_left _ (Nat.le_of_not_lt hstop)

/-! ## Calls -/

/-- What is done to an image. -/
inductive Call where
  | write (offset : Int64) (cells : List Cell)
  | clear

/-- The image after a call. Cells that have no place leave it as it was. -/
def call (i : Image) : Call → Image
  | .write offset cells =>
    match i.write offset cells with
    | .ok i' => i'
    | .error _ => i
  | .clear => empty

/-- The image after calls, from nothing. -/
def run (calls : List Call) : Image := calls.foldl call empty

namespace Call

/-- Whether a call writes. -/
def isWrite : Call → Bool
  | write _ _ => true
  | clear => false

/-- The byte that a call gives an offset: one that it has there, if all its cells have their place. -/
def byteAt? : Call → Nat → Option UInt8
  | write offset cells, p =>
    if Refused offset cells then none
    else if offset.toInt ≤ p then (cells[((p : Int) - offset.toInt).toNat]?).join
    else none
  | clear, _ => none

end Call

/-- The writes since the image was last cleared, the latest first. -/
def latest (calls : List Call) : List Call := calls.reverse.takeWhile Call.isWrite

theorem run_concat (calls : List Call) (c : Call) : run (calls ++ [c]) = (run calls).call c :=
  List.foldl_concat ..

theorem call_write (i : Image) (offset : Int64) (cells : List Cell) :
    (Refused offset cells ∧ (∃ e, i.write offset cells = .error e) ∧ i.call (.write offset cells) = i) ∨
      ¬ Refused offset cells ∧ i.write offset cells = .ok (i.call (.write offset cells)) ∧
        (i.call (.write offset cells)).size ≤ max i.size limit := by
  rw [call]
  by_cases h : Refused offset cells
  · obtain ⟨e, he⟩ := write_of_refused i h
    rw [he]
    exact .inl ⟨h, ⟨e, rfl⟩, rfl⟩
  · obtain ⟨i', hi', hsize⟩ := write_of_not_refused i h
    rw [hi']
    exact .inr ⟨h, rfl, hsize⟩

theorem get?_call_write (i : Image) (offset : Int64) (cells : List Cell) (p : Nat) :
    (i.call (.write offset cells)).get? p = ((Call.write offset cells).byteAt? p).or (i.get? p) := by
  rw [Call.byteAt?]
  rcases call_write i offset cells with ⟨h, -, hcall⟩ | ⟨h, hwrite, -⟩
  · rw [if_pos h, hcall]
    rfl
  · rw [if_neg h]
    exact get?_write hwrite p

/-- An offset has the byte of the latest write that gives it one, since the image was last cleared. -/
theorem get?_run (calls : List Call) (p : Nat) :
    (run calls).get? p = (latest calls).findSome? fun c => c.byteAt? p := by
  induction calls using List.reverseRecOn with
  | nil => rfl
  | append_singleton calls c ih =>
    rw [run_concat, latest, List.reverse_concat]
    cases c with
    | clear => rfl
    | write offset cells =>
      rw [get?_call_write, ih, List.takeWhile_cons_of_pos rfl, List.findSome?_cons]
      cases (Call.write offset cells).byteAt? p <;> rfl

theorem size_run_le (calls : List Call) : (run calls).size ≤ limit := by
  induction calls using List.reverseRecOn with
  | nil => exact Nat.zero_le _
  | append_singleton calls c ih =>
    rw [run_concat]
    cases c with
    | clear => exact Nat.zero_le _
    | write offset cells =>
      rcases call_write (run calls) offset cells with ⟨-, -, hcall⟩ | ⟨-, -, hsize⟩
      · rw [hcall]
        exact ih
      · exact Nat.le_trans hsize (max_le ih (Nat.le_refl _))

/-! ## The range of what is written -/

/-- Whether a range covers all written offsets and is part of every range that does. -/
structure Spans (i : Image) (first stop : Nat) : Prop where
  covers : ∀ p, i.get? p ≠ none → first ≤ p ∧ p < stop
  least : ∀ a b, (∀ p, i.get? p ≠ none → a ≤ p ∧ p < b) → a ≤ first ∧ stop ≤ b

theorem mem_bytes_iff {p : Nat} : p ∈ i.bytes ↔ i.get? p ≠ none := by
  rw [get?, Std.TreeMap.mem_iff_isSome_getElem?, Option.isSome_iff_ne_none]

/-- There is a range exactly if something is written, and it is the smallest one. -/
theorem writtenRange_spec (i : Image) : match i.writtenRange? with
    | some (first, stop) => first < stop ∧ i.Spans first stop
    | none => ∀ p, i.get? p = none := by
  unfold writtenRange?
  cases hmin : i.bytes.minKey? with
  | none =>
    rw [Std.TreeMap.minKey?_eq_none_iff] at hmin
    intro p
    exact Std.TreeMap.getElem?_of_isEmpty hmin
  | some first =>
    obtain ⟨last, hmax⟩ : ∃ last, i.bytes.maxKey? = some last := by
      rw [← Option.isSome_iff_exists, Std.TreeMap.isSome_maxKey?_eq_not_isEmpty,
        ← Std.TreeMap.isSome_minKey?_eq_not_isEmpty, hmin]
      rfl
    rw [hmax]
    obtain ⟨hfirst, hlow⟩ := Std.TreeMap.minKey?_eq_some_iff_mem_and_forall.mp hmin
    obtain ⟨hlast, hhigh⟩ := Std.TreeMap.maxKey?_eq_some_iff_mem_and_forall.mp hmax
    have hcovers : ∀ p, i.get? p ≠ none → first ≤ p ∧ p < last + 1 := by
      intro p hp
      have hmem := mem_bytes_iff.mpr hp
      exact ⟨Nat.isLE_compare.mp (hlow p hmem), Nat.lt_succ_of_le (Nat.isLE_compare.mp (hhigh p hmem))⟩
    refine ⟨(hcovers first (mem_bytes_iff.mp hfirst)).2, hcovers, fun a b h => ?_⟩
    exact ⟨(h first (mem_bytes_iff.mp hfirst)).1, (h last (mem_bytes_iff.mp hlast)).2⟩

/-- **An image is a partial map.** After any calls, an offset has the byte of the latest write since the image
was last cleared that had one for it. Writing fails exactly if the cells have no place, and then leaves the
image as it was. The image stays within its limit, its range is the smallest one with all written offsets, and
its flat form has one byte for each offset up to the end of that range: what is written there, or the
filler. -/
theorem refines_map (calls : List Call) (fill : UInt8) (trim : Bool) : let i := run calls
    (∀ p, i.get? p = (latest calls).findSome? fun c => c.byteAt? p) ∧ (∀ offset cells, match i.write offset cells with
        | .ok i' => ¬ Refused offset cells ∧ i.call (.write offset cells) = i'
        | .error _ => Refused offset cells ∧ i.call (.write offset cells) = i) ∧
      i.size ≤ limit ∧
      match i.writtenRange? with
      | some (first, stop) =>
        (first < stop ∧ i.Spans first stop) ∧ let start := if trim then first else 0
          (i.flatten fill trim).length = stop - start ∧
            ∀ k < stop - start, (i.flatten fill trim)[k]? = some ((i.get? (start + k)).getD fill)
      | none => (∀ p, i.get? p = none) ∧ i.flatten fill trim = [] := by
  intro i
  refine ⟨get?_run calls, fun offset cells => ?_, size_run_le calls, ?_⟩
  · rcases call_write i offset cells with ⟨h, ⟨e, he⟩, hcall⟩ | ⟨h, hwrite, -⟩
    · rw [he]
      exact ⟨h, hcall⟩
    · rw [hwrite]
      exact ⟨h, rfl⟩
  have hspec := writtenRange_spec i
  unfold flatten
  cases hrange : i.writtenRange? with
  | none =>
    rw [hrange] at hspec
    exact ⟨hspec, rfl⟩
  | some range =>
    rw [hrange] at hspec
    refine ⟨hspec, ?_, fun k hk => ?_⟩
    · rw [List.length_map, List.length_range']
    · rw [List.getElem?_map, List.getElem?_range' hk, Nat.one_mul]
      rfl

/-- A write that is cleared, two that overlap, and one that has no place. -/
def overlappingCalls : List Call :=
  [.write 0 [some 1], .clear, .write 2 [some 0xA9, none, some 1], .write 3 [some 7, none], .write (-1) [some 0]]

theorem refines_map_overlappingCalls :
    ((run overlappingCalls).writtenRange? = some (2, 5) ∧ 1 < 5 - 2) ∧ (run overlappingCalls).get? 3 = some 7 ∧
      ((run overlappingCalls).flatten 0xFF true)[1]? = some (((run overlappingCalls).get? (2 + 1)).getD 0xFF) := by
  have hrange : (run overlappingCalls).writtenRange? = some (2, 5) := by cbv
  have hmap := refines_map overlappingCalls 0xFF true
  simp only [hrange] at hmap
  refine ⟨⟨hrange, by decide⟩, ?_, hmap.2.2.2.2.2 1 (by decide)⟩
  rw [hmap.1]
  decide +kernel

end CrossAssembler.Image
