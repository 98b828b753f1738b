import CrossAssembler.Assembly.Build
import CrossAssembler.Proofs.Word

/-!
# Room for a window of a file

While the start or the length of a window of a file is not known, room is kept for it.

* `length_window` — how long a window is.

Principal result: `reserves_window` — the room is enough for every window that can still come out, and
larger than the file only if a length is known that is.
-/

namespace CrossAssembler

/-! ## Windows -/

theorem Word.clamp_toInt_le {n : Int} (h : Word.least ≤ n) : (Word.clamp n).toInt ≤ n := by
  have hholds : Word.Holds (max Word.least (min Word.greatest n)) := by
    unfold Word.Holds Word.least Word.greatest at *
    omega
  rw [Word.clamp, Word.toInt_ofInt hholds]
  exact max_le h (min_le_right _ _)

theorem length_window {data bytes : List UInt8} {start length : Option Int64}
    (h : window data start length = .ok bytes) :
    bytes.length ≤ data.length - (start.getD 0).toInt.toNat ∧
      ∀ n, length = some n → bytes.length ≤ n.toInt.toNat := by
  cases length with
  | none =>
    simp only [window] at h
    split at h
    · cases h
    · cases h
      rw [List.length_take, List.length_drop]
      exact ⟨Nat.min_le_right _ _, nofun⟩
  | some n =>
    simp only [window] at h
    split at h
    · cases h
    rename_i hrange
    cases h
    rw [List.length_take, List.length_drop]
    refine ⟨Nat.min_le_right _ _, fun _ hn => Nat.le_trans (Nat.min_le_left _ _) ?_⟩
    cases hn
    have hfirst := (Int64.le_iff_toInt_le ..).mp (Int64.not_lt.mp (not_or.mp hrange).1)
    have hlow : Word.least ≤ (start.getD 0).toInt + n.toInt := by
      have hn := (Word.holds_toInt n).1
      rw [Int64.toInt_zero] at hfirst
      omega
    have hclamp := Word.clamp_toInt_le hlow
    omega

namespace Assembly

/-- Whether an argument can come to a value: any, if it is not known yet. -/
def Answer.Allows {α : Type} (a : Answer α) (value : α) : Prop := ∀ known, a = .known known → value = known

/-- The value of an argument that is known and written. -/
def Answer.word? (a : Answer (Option Int64)) : Option Int64 := a.value?.join

variable {s s₁ s₂ : Assembly} {id : LineId} {part : Line.CommandPart} {data : List UInt8}
  {start length : Answer (Option Int64)}

/-- While an argument is not known, room is kept. -/
theorem compileBinary_of_pending (hstate : part.state = .binary data)
    (hstart : s.windowWord id part.arguments.length 1 = (start, s₁))
    (hlength : s₁.windowWord id part.arguments.length 2 = (length, s₂))
    (hfailed : start ≠ .failed ∧ length ≠ .failed) (hpending : start = .pending ∨ length = .pending) :
    s.compileBinary id part =
      s₂.emit id (List.replicate (reservedSize data.length (Answer.word? start) (Answer.word? length)) none) := by
  have hwords : s.windowWords id part.arguments.length =
      (some (Answer.word? start, Answer.word? length, true), s₂) := by
    unfold windowWords
    rw [hstart]
    cases start with
    | failed => exact absurd rfl hfailed.1
    | pending =>
      simp only [hlength]
      cases length with
      | failed => exact absurd rfl hfailed.2
      | pending => rfl
      | known => rfl
    | known =>
      simp only [hlength]
      cases length with
      | failed => exact absurd rfl hfailed.2
      | pending => rfl
      | known => exact hpending.elim nofun nofun
  unfold compileBinary
  simp only [hstate, hwords]

/-- Room is kept for every window that can still come out. -/
theorem length_le_reservedSize {v w : Option Int64} {bytes : List UInt8}
    (hpending : start = .pending ∨ length = .pending) (hv : Answer.Allows start v) (hw : Answer.Allows length w)
    (h : window data v w = .ok bytes) :
    bytes.length ≤ reservedSize data.length (Answer.word? start) (Answer.word? length) := by
  obtain ⟨hrest, hbound⟩ := length_window h
  have hall : bytes.length ≤ data.length := Nat.le_trans hrest (Nat.sub_le _ _)
  cases length with
  | known value =>
    cases value with
    | some n => exact hbound n (hw _ rfl)
    | none =>
      rw [hpending.resolve_right nofun]
      exact hall
  | pending | failed =>
    cases start with
    | known value =>
      rw [hv value rfl] at hrest
      cases value with
      | some n => exact hrest
      | none => exact hall
    | pending | failed => exact hall

/-- More room than the file has bytes is kept only for a length that is known. -/
theorem reservedSize_le (size : Nat) (start length : Option Int64) : reservedSize size start length ≤ size ∨
      ∃ n, length = some n ∧ (size : Int) < n.toInt ∧ reservedSize size start length = n.toInt.toNat := by
  cases length with
  | some n =>
    by_cases h : (size : Int) < n.toInt
    · exact .inr ⟨n, rfl, h, rfl⟩
    · exact .inl (Int.toNat_le.mpr (Int.not_lt.mp h))
  | none =>
    cases start with
    | some n => exact .inl (Nat.sub_le _ _)
    | none => exact .inl (Nat.le_refl _)

/-- **Room is kept for every window.** While the start or the length of a window is not known, and none of
them is wrong, a line keeps places without a byte. There are at least as many as any window has that agrees
with what is known, and no more than the file has bytes, unless a length is known that is larger: then there
are as many as it says. -/
theorem reserves_window (hstate : part.state = .binary data)
    (hstart : s.windowWord id part.arguments.length 1 = (start, s₁))
    (hlength : s₁.windowWord id part.arguments.length 2 = (length, s₂))
    (hfailed : start ≠ .failed ∧ length ≠ .failed) (hpending : start = .pending ∨ length = .pending) :
    ∃ count, s.compileBinary id part = s₂.emit id (List.replicate count none) ∧
      (∀ v w bytes, Answer.Allows start v → Answer.Allows length w → window data v w = .ok bytes →
        bytes.length ≤ count) ∧
      (count ≤ data.length ∨
        ∃ n, length = .known (some n) ∧ (data.length : Int) < n.toInt ∧ count = n.toInt.toNat) := by
  refine ⟨_, compileBinary_of_pending hstate hstart hlength hfailed hpending,
    fun v w bytes => length_le_reservedSize hpending, ?_⟩
  refine (reservedSize_le data.length (Answer.word? start) (Answer.word? length)).imp_right ?_
  rintro ⟨n, hn, hlarge, hcount⟩
  refine ⟨n, ?_, hlarge, hcount⟩
  cases length with
  | known value => exact congrArg _ hn
  | pending | failed => cases hn

/-- A window whose start comes further down and whose length is larger than its file, at the beginning of the
first pass. -/
def overlongWork : Assembly :=
  (analyzeOnly {} (fun path => if path = "f.bin" then .file [1, 2] else .missing)
    [("main.asm", ".INCBIN \"f.bin\", later, 8\n.DEF later 0\n")]).beginPass 0 false

/-- The directive of the first line of `overlongWork`. -/
def overlongPart : Line.CommandPart :=
  match (overlongWork.line 0).kind with
  | .command part => part
  | _ => ⟨.includeBinary, ⟨0, 1, 0, 0, ""⟩, [], [], none, none, .none⟩

/-- The data that a directive keeps. -/
def keptData? : DirectiveState → Option (List UInt8)
  | .binary data => some data
  | _ => none

theorem eq_binary_of_keptData {state : DirectiveState} (h : keptData? state = some data) : state = .binary data := by
  cases state with
  | binary data => exact congrArg _ (Option.some.inj h)
  | _ => cases h

/-- The file has two bytes, and of its window the start is not known and the length is. The line keeps eight
places. -/
theorem overlongWork_spec : keptData? overlongPart.state = some [1, 2] ∧
      (overlongWork.windowWord 0 overlongPart.arguments.length 1).1 = .pending ∧
      ((overlongWork.windowWord 0 overlongPart.arguments.length 1).2.windowWord 0
        overlongPart.arguments.length 2).1 = .known (some 8) ∧
      ((overlongWork.compileBinary 0 overlongPart).line 0).bytes.length = 8 := by decide +kernel

theorem eq_mk_of_fst {α β : Type} {r : α × β} {a : α} (h : r.1 = a) : r = (a, r.2) := by
  rw [← h]

theorem reserves_window_overlongWork : let first := overlongWork.windowWord 0 overlongPart.arguments.length 1
    let second := first.2.windowWord 0 overlongPart.arguments.length 2
    (overlongPart.state = .binary [1, 2] ∧ first.1 = .pending ∧ second.1 = .known (some 8)) ∧
      ∃ count, overlongWork.compileBinary 0 overlongPart = second.2.emit 0 (List.replicate count none) ∧
        (∀ v w bytes, Answer.Allows .pending v → Answer.Allows (.known (some 8)) w →
          window [1, 2] v w = .ok bytes → bytes.length ≤ count) ∧
        (count ≤ [(1 : UInt8), 2].length ∨ ∃ n, Answer.known (some (8 : Int64)) = .known (some n) ∧
          ([(1 : UInt8), 2].length : Int) < n.toInt ∧ count = n.toInt.toNat) := by
  obtain ⟨hdata, hstart, hlength, -⟩ := overlongWork_spec
  have hstate := eq_binary_of_keptData hdata
  exact ⟨⟨hstate, hstart, hlength⟩,
    reserves_window hstate (eq_mk_of_fst hstart) (eq_mk_of_fst hlength) ⟨nofun, nofun⟩ (.inl rfl)⟩

/-- The line of `overlongWork` keeps eight places for a window of a file of two bytes, though no window of that
length can come out. -/
theorem exceeds_overlongWork : overlongPart.state = .binary [1, 2] ∧
      ((overlongWork.compileBinary 0 overlongPart).line 0).bytes.length = 8 ∧
      ∀ start bytes, window [1, 2] start (some 8) ≠ .ok bytes := by
  obtain ⟨hdata, -, -, hlength⟩ := overlongWork_spec
  refine ⟨eq_binary_of_keptData hdata, hlength, fun start bytes h => ?_⟩
  simp only [window] at h
  split at h
  · cases h
  rename_i hrange
  have hholds := Word.holds_toInt (start.getD 0)
  have height : (8 : Int64).toInt = 8 := by decide
  have htwo : (Int64.ofNat [(1 : UInt8), 2].length).toInt = 2 := by decide
  simp only [not_or, Int64.not_lt, Int64.le_iff_toInt_le, Word.clamp] at hrange
  unfold Word.Holds Word.least Word.greatest at *
  rw [Word.toInt_ofInt (by unfold Word.Holds Word.least Word.greatest; omega), height, htwo,
    Int64.toInt_zero] at hrange
  omega

end Assembly

end CrossAssembler
