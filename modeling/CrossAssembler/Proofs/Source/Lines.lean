import CrossAssembler.Proofs.Source.Positions

/-!
# Lines and columns

The line of a byte offset counts the line ends before it, and its column the bytes since the last of these.
Offsets within a character and past the end of the text count as well.

Principal results: `position_eq` — line and column of an offset; `positions_and_lines` — and the lines of a source
lie between its line ends, where their offsets have their numbers.
-/

namespace CrossAssembler

open Text

variable {before : List Char}

namespace Text

theorem takeBytes_add (xs ys : List Char) (n : Nat) :
    takeBytes (byteLength xs + n) (xs ++ ys) = xs ++ takeBytes n ys := by
  induction xs with
  | nil => rw [byteLength_nil, Nat.zero_add, List.nil_append, List.nil_append]
  | cons c cs ih =>
    have hc := c.utf8Size_pos
    obtain ⟨k, hk⟩ : ∃ k, byteLength (c :: cs) + n = k + 1 := Nat.exists_eq_succ_of_ne_zero (by simp; omega)
    have hrest : k + 1 - c.utf8Size = byteLength cs + n := by
      rw [← hk, byteLength_cons]
      omega
    rw [hk, List.cons_append, takeBytes, hrest, ih, List.cons_append]

theorem takeBytes_append_of_le {xs : List Char} (ys : List Char) {n : Nat} (h : n ≤ byteLength xs) :
    takeBytes n (xs ++ ys) = takeBytes n xs := by
  induction xs generalizing n with
  | nil =>
    obtain rfl := Nat.le_zero.mp h
    cases ys <;> rfl
  | cons c cs ih =>
    cases n with
    | zero => rfl
    | succ n =>
      rw [List.cons_append, takeBytes, takeBytes, ih]
      rw [byteLength_cons] at h
      omega

theorem takeBytes_subset (n : Nat) (cs : List Char) : takeBytes n cs ⊆ cs := by
  induction cs generalizing n with
  | nil => cases n <;> exact List.Subset.refl _
  | cons c cs ih =>
    cases n with
    | zero => exact List.nil_subset _
    | succ n => exact List.cons_subset_cons c (ih _)

end Text

/-! ## Positions -/

theorem lineStart_of_not_mem (h : '\n' ∉ before) : lineStart before = 0 :=
  @lineStart_append [] before h

theorem lineStart_cons (c : Char) (h : '\n' ∈ before) : lineStart (c :: before) = c.utf8Size + lineStart before := by
  have hends : (before.reverse.dropWhile (· != '\n')).isEmpty = false := by
    rw [List.isEmpty_eq_false_iff, Ne, List.dropWhile_eq_nil_iff]
    exact fun hall => absurd (hall '\n' (List.mem_reverse.mpr h)) (by decide)
  rw [lineStart, List.reverse_cons, List.dropWhile_append, hends, if_neg Bool.false_ne_true, List.reverse_append]
  rfl

theorem lineStart_newline_cons (h : '\n' ∉ before) : lineStart ('\n' :: before) = 1 :=
  @lineStart_append ['\n'] before h

theorem positionFrom_eq (line column offset : Nat) (cs : List Char) :
    positionFrom line column offset cs = (line + (takeBytes offset cs).count '\n',
      if '\n' ∈ takeBytes offset cs then 1 + (offset - lineStart (takeBytes offset cs)) else column + offset) := by
  induction cs generalizing line column offset with
  | nil => cases offset <;> rfl
  | cons c cs ih =>
    cases offset with
    | zero =>
      rw [positionFrom, if_pos c.utf8Size_pos]
      rfl
    | succ n =>
      rw [positionFrom, takeBytes]
      split
      · -- the offset is within a character, which has more than one byte
        rename_i hwithin
        have hc : c ≠ '\n' := by
          rintro rfl
          exact absurd hwithin (Nat.not_lt.mpr (Nat.le_add_left 1 n))
        have hnone : takeBytes (n + 1 - c.utf8Size) cs = [] := by
          rw [Nat.sub_eq_zero_of_le hwithin.le]
          cases cs <;> rfl
        rw [hnone, List.count_singleton, if_neg (by simpa using hc), if_neg (by simpa using hc.symm)]
        rfl
      rename_i hbeyond
      split
      · rename_i hc
        subst hc
        rw [ih, List.count_cons_self, if_pos List.mem_cons_self]
        have hsize : n + 1 - ('\n' : Char).utf8Size = n := rfl
        rw [hsize]
        split
        · rename_i hends
          rw [lineStart_cons _ hends]
          have hone : ('\n' : Char).utf8Size = 1 := rfl
          refine Prod.ext ?_ ?_
          · simp only
            omega
          · simp only
            omega
        · rename_i hends
          rw [lineStart_newline_cons hends]
          refine Prod.ext ?_ ?_
          · simp only
            omega
          · simp only
            omega
      · rename_i hc
        rw [ih, List.count_cons_of_ne hc]
        refine Prod.ext rfl ?_
        simp only [List.mem_cons, Ne.symm hc, false_or]
        split
        · rename_i hends
          rw [lineStart_cons _ hends]
          omega
        · omega

theorem SourceFile.position_eq (file : SourceFile) (offset : Nat) :
    file.position offset = (1 + (takeBytes offset file.text.toList).count '\n',
      1 + (offset - lineStart (takeBytes offset file.text.toList))) := by
  rw [SourceFile.position, positionFrom_eq]
  split
  · rfl
  · rename_i hends
    rw [lineStart_of_not_mem hends, Nat.sub_zero]

/-- Offsets in a line have its number, and count from its start. -/
theorem SourceLine.Fills.position {l : SourceLine} {file : SourceFile} (h : l.Fills file.text.toList) {offset : Nat}
    (hstart : l.offset ≤ offset) (hstop : offset ≤ l.offset + byteLength l.text) :
    file.position offset = (l.number, 1 + (offset - l.offset)) := by
  obtain ⟨before, row, after, htext, hbegins, hrow, -, hline⟩ := h
  obtain ⟨n, rfl⟩ := Nat.exists_eq_add_of_le hstart
  have hn : n ≤ byteLength row := by
    obtain ⟨rest, rfl⟩ := hline.isPrefix
    rw [byteLength_append]
    omega
  have hpart : '\n' ∉ takeBytes n row := fun hmem => hrow (takeBytes_subset n row hmem)
  rw [SourceFile.position_eq, htext, List.append_assoc, hbegins.start, takeBytes_add, takeBytes_append_of_le _ hn,
    List.count_append, List.count_eq_zero.mpr hpart, Nat.add_zero, lineStart_append hpart, hbegins.fresh,
    hbegins.number]

theorem length_placeRows (number start : Nat) (rows : List (List Char)) :
    (placeRows number start rows).length = rows.length := by
  induction rows generalizing number start with
  | nil => rfl
  | cons row rows ih => exact congrArg (· + 1) (ih _ _)

theorem length_splitOn (c : Char) (cs : List Char) : (cs.splitOn c).length = cs.count c + 1 := by
  induction cs with
  | nil => rfl
  | cons d cs ih =>
    rw [List.splitOn_cons_eq_if_modifyHead, List.count_cons]
    split
    · rw [List.length_cons, ih]
    · rw [List.length_modifyHead, ih]

/-- The line of a byte offset, also of one within a character or past the end, is one more than the line ends
before it, and its column is one more than the bytes since the last of these or the start of the text. There is one
line more than line ends; the lines are numbered in order, each is the text between two line ends, less a carriage
return at its end, and starts where that begins; and the offsets in a line have its number and count from its
start. -/
theorem positions_and_lines (file : SourceFile) :
    (∀ offset, file.position offset = (1 + (takeBytes offset file.text.toList).count '\n',
      1 + (offset - lineStart (takeBytes offset file.text.toList)))) ∧
    file.lines.length = file.text.toList.count '\n' + 1 ∧
    (∀ i l, file.lines[i]? = some l → l.number = i + 1 ∧ l.Fills file.text.toList) ∧
    ∀ l ∈ file.lines, ∀ offset, l.offset ≤ offset → offset ≤ l.offset + byteLength l.text →
      file.position offset = (l.number, 1 + (offset - l.offset)) := by
  refine ⟨file.position_eq, ?_, fun i l hl => SourceFile.fills_lines hl, fun l hl offset hstart hstop => ?_⟩
  · rw [file.lines_eq_placeRows, length_placeRows, length_splitOn]
  · obtain ⟨i, hi⟩ := List.mem_iff_getElem?.mp hl
    exact (SourceFile.fills_lines hi).2.position hstart hstop

end CrossAssembler
