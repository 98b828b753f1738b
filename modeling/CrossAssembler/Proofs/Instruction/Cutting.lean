import CrossAssembler.Instruction.Pattern
import Mathlib

/-!
# Cutting an operand by a pattern

Principal results: `cut_of_match`, `match_of_cut` — for a pattern that joins, matching finds a cut whenever
there is one, and it finds the rightmost.
-/

namespace CrossAssembler

namespace Operand

variable {depth : Nat}

/-! ## Single expressions -/

/-- Whether a glyph is a bracket that opens. -/
def Glyph.opens (g : Glyph) : Bool := !g.quoted && (g.char == '(' || g.char == '[')

/-- Whether a glyph is a bracket that closes. -/
def Glyph.closes (g : Glyph) : Bool := !g.quoted && (g.char == ')' || g.char == ']')

/-- Whether a glyph is a comma. -/
def Glyph.isComma (g : Glyph) : Bool := !g.quoted && g.char == ','

/-- Brackets balance from a depth on, and no comma stands outside them. -/
structure SingleFrom (depth : Nat) (gs : List Glyph) : Prop where
  balanced : depth + gs.countP Glyph.opens = gs.countP Glyph.closes
  nested : ∀ before after, gs = before ++ after → before.countP Glyph.closes ≤ depth + before.countP Glyph.opens
  commas : ∀ before g after, gs = before ++ g :: after → g.isComma = true →
    before.countP Glyph.closes < depth + before.countP Glyph.opens

/-- Brackets balance, and no comma stands outside them. -/
def Single (gs : List Glyph) : Prop := SingleFrom 0 gs

theorem singleFrom_nil : SingleFrom depth [] ↔ depth = 0 := by
  refine ⟨fun h => by simpa using h.balanced, ?_⟩
  rintro rfl
  exact ⟨rfl, by simp, by simp⟩

theorem singleFrom_cons (depth' : Nat) {g : Glyph} {gs : List Glyph}
    (hdepth : depth + [g].countP Glyph.opens = depth' + [g].countP Glyph.closes)
    (hcomma : g.isComma = true → 0 < depth) : SingleFrom depth (g :: gs) ↔ SingleFrom depth' gs := by
  have hsplit : ∀ (p : Glyph → Bool) (rest : List Glyph),
      ([g] ++ rest).countP p = [g].countP p + rest.countP p := fun _ _ => List.countP_append
  simp only [List.singleton_append] at hsplit
  constructor
  · intro h
    refine ⟨?_, fun before after heq => ?_, fun before c after heq hc => ?_⟩
    · have := h.balanced
      rw [hsplit _ gs, hsplit _ gs] at this
      omega
    · have := h.nested (g :: before) after (by rw [heq]; rfl)
      rw [hsplit _ before, hsplit _ before] at this
      omega
    · have := h.commas (g :: before) c after (by rw [heq]; rfl) hc
      rw [hsplit _ before, hsplit _ before] at this
      omega
  · intro h
    refine ⟨?_, fun before after heq => ?_, fun before c after heq hc => ?_⟩
    · have := h.balanced
      rw [hsplit _ gs, hsplit _ gs]
      omega
    · rcases before with _ | ⟨b, before⟩
      · simp
      · rw [List.cons_append, List.cons.injEq] at heq
        have := h.nested before after heq.2
        rw [← heq.1, hsplit _ before, hsplit _ before]
        omega
    · rcases before with _ | ⟨b, before⟩
      · rw [List.nil_append, List.cons.injEq] at heq
        rw [← heq.1] at hc
        simpa using hcomma hc
      · rw [List.cons_append, List.cons.injEq] at heq
        have := h.commas before c after heq.2 hc
        rw [← heq.1, hsplit _ before, hsplit _ before]
        omega

theorem isSingleFrom_iff (depth : Nat) (gs : List Glyph) : isSingleFrom depth gs = true ↔ SingleFrom depth gs := by
  fun_induction isSingleFrom depth gs with
  | case1 depth =>
    rw [singleFrom_nil, beq_iff_eq]
  | case2 depth g gs hquoted ih =>
    rw [ih, singleFrom_cons depth]
    · simp [Glyph.opens, Glyph.closes, hquoted]
    · simp [Glyph.isComma, hquoted]
  | case3 depth g gs hquoted hcomma =>
    refine iff_of_false (by simp) fun h => ?_
    have := h.commas [] g gs rfl (by simp [Glyph.isComma, hquoted, hcomma.1])
    simp [hcomma.2] at this
  | case4 depth g gs hquoted hcomma hopens ih =>
    rw [ih, singleFrom_cons (depth + 1)]
    · rcases hopens with h | h <;> simp [Glyph.opens, Glyph.closes, hquoted, h]
    · rcases hopens with h | h <;> simp [Glyph.isComma, h]
  | case5 g gs hquoted hopens hcloses hcomma =>
    refine iff_of_false (by simp) fun h => ?_
    have := h.nested [g] gs rfl
    rcases hcloses with h' | h' <;> simp [Glyph.opens, Glyph.closes, hquoted, h'] at this
  | case6 g gs hquoted hopens hcloses depth hcomma ih =>
    rw [ih, singleFrom_cons depth]
    · rcases hcloses with h | h <;> simp [Glyph.opens, Glyph.closes, hquoted, h]
    · exact fun _ => Nat.succ_pos depth
  | case7 depth g gs hquoted hcomma hopens hcloses ih =>
    rw [ih, singleFrom_cons depth]
    · simp_all [Glyph.opens, Glyph.closes]
    · intro hg
      simp only [Glyph.isComma, Bool.and_eq_true, beq_iff_eq] at hg
      exact Nat.pos_of_ne_zero fun hzero => hcomma ⟨hg.2, hzero⟩

theorem isSingleExpression_iff (gs : List Glyph) : isSingleExpression gs = true ↔ Single gs :=
  isSingleFrom_iff 0 gs

theorem isSingleFrom_append {xs : List Glyph} (h : isSingleFrom depth xs = true)
    (ys : List Glyph) : isSingleFrom depth (xs ++ ys) = isSingleFrom 0 ys := by
  fun_induction isSingleFrom depth xs with
  | case1 depth =>
    rw [beq_iff_eq] at h
    rw [h, List.nil_append]
  | case2 depth g gs hquoted ih =>
    rw [List.cons_append, isSingleFrom.eq_def]
    simp only
    rw [if_pos hquoted]
    exact ih h
  | case3 => cases h
  | case4 depth g gs hquoted hcomma hopens ih =>
    rw [List.cons_append, isSingleFrom.eq_def]
    simp only
    rw [if_neg hquoted, if_neg hcomma, if_pos hopens]
    exact ih h
  | case5 => cases h
  | case6 g gs hquoted hopens hcloses depth hcomma ih =>
    rw [List.cons_append, isSingleFrom.eq_def]
    simp only
    rw [if_neg hquoted, if_neg hcomma, if_neg hopens, if_pos hcloses]
    exact ih h
  | case7 depth g gs hquoted hcomma hopens hcloses ih =>
    rw [List.cons_append, isSingleFrom.eq_def]
    simp only
    rw [if_neg hquoted, if_neg hcomma, if_neg hopens, if_neg hcloses]
    exact ih h

end Operand

namespace Pattern

open Operand

variable {literal : List Char} {gs : List Glyph} {literals : List (List Char)} {parts : List (List Glyph)}
variable {place : Nat} {p : Pattern}

/-! ## Literals -/

/-- Whether glyphs write a literal, none of them quoted. -/
def Spells (literal : List Char) (gs : List Glyph) : Prop :=
  gs.map Glyph.char = literal ∧ ∀ g ∈ gs, g.quoted = false

theorem Spells.length (h : Spells literal gs) : gs.length = literal.length := by
  rw [← h.1, List.length_map]

theorem startsWith_iff :
    startsWith literal gs = true ↔ ∃ written rest, Spells literal written ∧ gs = written ++ rest := by
  fun_induction startsWith literal gs with
  | case1 gs => exact iff_of_true rfl ⟨[], gs, ⟨rfl, by simp⟩, rfl⟩
  | case2 c cs =>
    refine iff_of_false (by simp) ?_
    rintro ⟨written, rest, hspells, heq⟩
    have hnil : written = [] := (List.append_eq_nil_iff.mp heq.symm).1
    rw [hnil] at hspells
    cases hspells.1
  | case3 c cs g gs ih =>
    rw [Bool.and_eq_true, Bool.and_eq_true, ih, Bool.not_eq_true', beq_iff_eq]
    constructor
    · rintro ⟨⟨hquoted, hchar⟩, written, rest, hspells, rfl⟩
      refine ⟨g :: written, rest, ⟨?_, ?_⟩, rfl⟩
      · rw [List.map_cons, hchar, hspells.1]
      · exact List.forall_mem_cons.mpr ⟨hquoted, hspells.2⟩
    · rintro ⟨written, rest, ⟨hchars, hquoted⟩, heq⟩
      rcases written with _ | ⟨w, written⟩
      · cases hchars
      · rw [List.cons_append, List.cons.injEq] at heq
        rw [List.map_cons, List.cons.injEq] at hchars
        obtain ⟨hw, hquoted⟩ := List.forall_mem_cons.mp hquoted
        rw [heq.1]
        exact ⟨⟨hw, hchars.1⟩, written, rest, ⟨hchars.2, hquoted⟩, heq.2⟩

/-- A literal without brackets and commas. -/
def IsNeutral (literal : List Char) : Prop := ∀ c ∈ literal, c ∉ [',', '(', '[', ')', ']']

instance (literal : List Char) : Decidable (IsNeutral literal) :=
  inferInstanceAs (Decidable (∀ c ∈ literal, c ∉ [',', '(', '[', ')', ']']))

theorem isSingleFrom_neutral (hneutral : IsNeutral literal) {written : List Glyph}
    (hspells : Spells literal written) (depth : Nat) (gs : List Glyph) :
    isSingleFrom depth (written ++ gs) = isSingleFrom depth gs := by
  obtain ⟨rfl, hquoted⟩ := hspells
  induction written with
  | nil => rfl
  | cons g written ih =>
    have hchar : g.char ∉ [',', '(', '[', ')', ']'] := hneutral g.char List.mem_cons_self
    simp only [List.mem_cons, List.not_mem_nil, or_false, not_or] at hchar
    obtain ⟨hg, hquoted⟩ := List.forall_mem_cons.mp hquoted
    rw [List.cons_append, isSingleFrom.eq_def]
    simp only
    rw [if_neg (by simp [hg]), if_neg (by simp [hchar]),
      if_neg (by simp [hchar]), if_neg (by simp [hchar])]
    exact ih hquoted fun c hc => hneutral c (List.mem_cons_of_mem g.char hc)

/-! ## Cuts -/

/-- Glyphs that are a part for each literal, a single expression, with the literal behind it. -/
inductive Woven : List (List Char) → List (List Glyph) → List Glyph → Prop
  | nil : Woven [] [] []
  | cons {literal : List Char} {literals : List (List Char)} {part written rest : List Glyph}
      {parts : List (List Glyph)} : part ≠ [] → Single part → Spells literal written →
      Woven literals parts rest → Woven (literal :: literals) (part :: parts) (part ++ written ++ rest)

/-- Whether an operand can be cut into the literals of a pattern and the given parts, which are single
expressions. -/
def Cut (p : Pattern) (gs : List Glyph) (parts : List (List Glyph)) : Prop :=
  ∃ written rest, Spells p.first written ∧ Woven p.others parts rest ∧ gs = written ++ rest

/-- The lengths of the parts of a cut, the last one first. -/
def lengthsFromRight (parts : List (List Glyph)) : List Nat := (parts.map List.length).reverse

/-- Whether a cut has every literal, taken from the right, as far to the right as any cut has it. -/
def Rightmost (p : Pattern) (gs : List Glyph) (parts : List (List Glyph)) : Prop :=
  p.Cut gs parts ∧ ∀ others, p.Cut gs others → ¬ List.Lex (· < ·) (lengthsFromRight others) (lengthsFromRight parts)

/-- Whether the literals that stand left of another one between placeholders are neutral. What they join
is then a single expression. -/
def Joins (p : Pattern) : Prop := ∀ literal ∈ p.others.dropLast.dropLast, IsNeutral literal

theorem woven_concat : Woven (literals ++ [literal]) parts gs ↔
      ∃ before part rest written, parts = before ++ [part] ∧ gs = rest ++ part ++ written ∧
        Woven literals before rest ∧ part ≠ [] ∧ Single part ∧ Spells literal written := by
  constructor
  · intro h
    induction literals generalizing parts gs with
    | nil =>
      cases h with
      | cons hpart hsingle hspells hrest =>
        cases hrest
        exact ⟨[], _, [], _, rfl, by simp, .nil, hpart, hsingle, hspells⟩
    | cons first literals ih =>
      cases h with
      | @cons _ _ part written rest parts hpart hsingle hspells hrest =>
        obtain ⟨before, last, inner, final, rfl, rfl, hwoven, hlast⟩ := ih hrest
        exact ⟨part :: before, last, part ++ written ++ inner, final, rfl, by simp,
          .cons hpart hsingle hspells hwoven, hlast⟩
  · rintro ⟨before, part, rest, written, rfl, rfl, hwoven, hpart, hsingle, hspells⟩
    induction hwoven with
    | nil =>
      have h := Woven.cons hpart hsingle hspells .nil
      simpa using h
    | cons hp hs hw _ ih =>
      have h := Woven.cons hp hs hw ih
      simpa using h

theorem Woven.isSingleFrom_append (h : Woven literals parts gs) (hneutral : ∀ literal ∈ literals, IsNeutral literal)
    (rest : List Glyph) : isSingleFrom 0 (gs ++ rest) = isSingleFrom 0 rest := by
  induction h with
  | nil => rfl
  | cons _ hsingle hspells _ ih =>
    obtain ⟨hliteral, hneutral⟩ := List.forall_mem_cons.mp hneutral
    rw [List.append_assoc, List.append_assoc, Operand.isSingleFrom_append ((isSingleExpression_iff _).mpr hsingle),
      isSingleFrom_neutral hliteral hspells]
    exact ih hneutral

/-! ## Parts between literals -/

/-- Whether glyphs are parts with literals between them. -/
def Parted (literals : List (List Char)) (parts : List (List Glyph)) (gs : List Glyph) : Prop :=
  ∃ before last rest, parts = before ++ [last] ∧ gs = rest ++ last ∧ Woven literals before rest ∧
    last ≠ [] ∧ Single last

theorem parted_concat : Parted (literals ++ [literal]) parts gs ↔
      ∃ before last left written, parts = before ++ [last] ∧ gs = left ++ written ++ last ∧
        Parted literals before left ∧ Spells literal written ∧ last ≠ [] ∧ Single last := by
  constructor
  · rintro ⟨before, last, rest, rfl, rfl, hwoven, hlast, hsingle⟩
    obtain ⟨init, part, inner, written, rfl, rfl, hinner, hpart, hs, hspells⟩ := woven_concat.mp hwoven
    exact ⟨_, last, _, written, rfl, rfl, ⟨init, part, inner, rfl, rfl, hinner, hpart, hs⟩, hspells, hlast, hsingle⟩
  · rintro ⟨_, last, _, written, rfl, rfl, ⟨init, part, inner, rfl, rfl, hinner, hpart, hs⟩, hspells, hlast, hsingle⟩
    exact ⟨_, last, _, rfl, rfl, woven_concat.mpr ⟨init, part, inner, written, rfl, rfl, hinner, hpart,
      hs, hspells⟩, hlast, hsingle⟩

theorem Parted.single (h : Parted literals parts gs) (hneutral : ∀ literal ∈ literals, IsNeutral literal) :
    isSingleExpression gs = true := by
  obtain ⟨before, last, rest, rfl, rfl, hwoven, -, hsingle⟩ := h
  rw [isSingleExpression, hwoven.isSingleFrom_append hneutral]
  exact (isSingleExpression_iff last).mpr hsingle

theorem Parted.extend {more : List Glyph}
    (h : Parted literals parts gs) (hneutral : ∀ literal ∈ literals, IsNeutral literal)
    (hsingle : isSingleExpression (gs ++ more) = true) : ∃ parts', Parted literals parts' (gs ++ more) := by
  obtain ⟨before, last, rest, rfl, rfl, hwoven, hlast, -⟩ := h
  refine ⟨before ++ [last ++ more], before, last ++ more, rest, rfl, List.append_assoc .., hwoven, ?_, ?_⟩
  · simp [hlast]
  · rw [List.append_assoc, isSingleExpression, hwoven.isSingleFrom_append hneutral] at hsingle
    exact (isSingleExpression_iff _).mp hsingle

/-! ## The search from the right -/

theorem dividesAt_iff (hplace : place ≤ gs.length) :
    dividesAt literal gs place = true ↔ ∃ left written right, gs = left ++ written ++ right ∧
      left.length = place ∧ Spells literal written ∧ isSingleExpression left = true ∧ Single right := by
  rw [dividesAt, Bool.and_eq_true, Bool.and_eq_true, startsWith_iff, isSingleExpression_iff (gs.drop _)]
  constructor
  · rintro ⟨⟨⟨written, right, hspells, hdrop⟩, hleft⟩, hright⟩
    refine ⟨gs.take place, written, right, ?_, ?_, hspells, hleft, ?_⟩
    · rw [List.append_assoc, ← hdrop, List.take_append_drop]
    · exact List.length_take_of_le hplace
    · rw [← List.drop_drop, hdrop, ← hspells.length, List.drop_left] at hright
      exact hright
  · rintro ⟨left, written, right, rfl, rfl, hspells, hleft, hright⟩
    refine ⟨⟨⟨written, right, hspells, ?_⟩, ?_⟩, ?_⟩
    · rw [List.append_assoc, List.drop_left]
    · rwa [List.append_assoc, List.take_left]
    · rwa [← hspells.length, ← List.length_append, List.drop_left]

theorem divideRight_eq_some (h : divideRight? literal gs = some place) :
    (∃ left written right, gs = left ++ written ++ right ∧ left.length = place ∧ left ≠ [] ∧
        right ≠ [] ∧ Spells literal written ∧ isSingleExpression left = true ∧ Single right) ∧
      ∀ later, place < later → later < gs.length - literal.length → dividesAt literal gs later = false := by
  obtain ⟨hdivides, smaller, larger, hrange, hlarger⟩ := List.find?_eq_some_iff_append.mp h
  rw [List.reverse_eq_iff, List.reverse_append, List.reverse_cons, List.append_assoc] at hrange
  have hplace : place < gs.length - literal.length := by
    rw [← List.mem_range, hrange]
    simp
  rw [Bool.and_eq_true, decide_eq_true_eq, dividesAt_iff (by omega)] at hdivides
  obtain ⟨hpos, left, written, right, heq, hlength, hspells, hleft, hright⟩ := hdivides
  have hwritten := hspells.length
  have htotal := congrArg List.length heq
  simp only [List.length_append] at htotal
  refine ⟨⟨left, written, right, heq, hlength, ?_, ?_, hspells, hleft, hright⟩, fun later hlt hlater => ?_⟩
  · exact List.ne_nil_of_length_pos (by omega)
  · exact List.ne_nil_of_length_pos (by omega)
  -- places to the right have been tried before
  have hmem : later ∈ smaller := by
    have hin : later ∈ List.range (gs.length - literal.length) := List.mem_range.mpr hlater
    have hsorted := List.pairwise_lt_range (n := gs.length - literal.length)
    rw [hrange] at hin hsorted
    rcases List.mem_append.mp hin with hin | hin
    · have := (List.pairwise_append.mp hsorted).2.2 later hin place (by simp)
      omega
    · rcases List.mem_append.mp hin with hin | hin
      · rw [List.mem_singleton] at hin
        omega
      · exact List.mem_reverse.mp hin
  have := hlarger later hmem
  rw [Bool.not_eq_true', Bool.and_eq_false_iff, decide_eq_false_iff_not] at this
  exact this.resolve_left (by omega)

theorem divideRight_isSome (hpos : 1 ≤ place)
    (hplace : place < gs.length - literal.length) (hdivides : dividesAt literal gs place = true) :
    ∃ found, divideRight? literal gs = some found := by
  rw [← Option.isSome_iff_exists, divideRight?, List.find?_isSome]
  refine ⟨place, List.mem_reverse.mpr (List.mem_range.mpr hplace), ?_⟩
  rw [Bool.and_eq_true, decide_eq_true_eq]
  exact ⟨hpos, hdivides⟩

theorem partsFromRight_divided (literals : List (List Char)) (h : divideRight? literal gs = some place) :
    ∃ left written right, gs = left ++ written ++ right ∧ left.length = place ∧ right ≠ [] ∧
      Spells literal written ∧ isSingleExpression left = true ∧ Single right ∧
      partsFromRight (literal :: literals) gs = (partsFromRight literals left).map (right :: ·) := by
  obtain ⟨⟨left, written, right, rfl, rfl, -, hright, hspells, hleft, hsingle⟩, -⟩ := divideRight_eq_some h
  refine ⟨left, written, right, rfl, rfl, hright, hspells, hleft, hsingle, ?_⟩
  rw [partsFromRight, h]
  simp only
  rw [List.append_assoc, List.take_left, ← List.append_assoc, ← hspells.length, ← List.length_append, List.drop_left]

theorem partsFromRight_nil : partsFromRight [] gs = some parts ↔ parts = [gs] ∧ gs ≠ [] ∧ Single gs := by
  rw [partsFromRight, ← isSingleExpression_iff]
  split
  · rename_i hgs
    rw [Bool.or_eq_true, List.isEmpty_iff, Bool.not_eq_true'] at hgs
    refine iff_of_false nofun fun h => ?_
    rcases hgs with hgs | hgs
    · exact h.2.1 hgs
    · rw [h.2.2] at hgs
      cases hgs
  · rename_i hgs
    rw [Bool.or_eq_true, not_or, List.isEmpty_iff, Bool.not_eq_true', Bool.not_eq_false] at hgs
    rw [Option.some.injEq, eq_comm]
    exact (and_iff_left hgs).symm

theorem parted_of_partsFromRight : ∀ {literals : List (List Char)} {gs : List Glyph}
    {parts : List (List Glyph)}, partsFromRight literals gs = some parts → Parted literals.reverse parts.reverse gs
  | [], gs, parts, h => by
    obtain ⟨rfl, hgs⟩ := partsFromRight_nil.mp h
    exact ⟨[], gs, [], rfl, rfl, .nil, hgs⟩
  | literal :: literals, gs, parts, h => by
    cases hfound : divideRight? literal gs with
    | none =>
      rw [partsFromRight, hfound] at h
      cases h
    | some place =>
      obtain ⟨left, written, right, rfl, -, hright, hspells, -, hsingle, hparts⟩ :=
        partsFromRight_divided literals hfound
      rw [hparts] at h
      obtain ⟨found, hrest, rfl⟩ := Option.map_eq_some_iff.mp h
      rw [List.reverse_cons, List.reverse_cons, parted_concat]
      exact ⟨_, right, left, written, rfl, rfl, parted_of_partsFromRight hrest, hspells, hright, hsingle⟩

theorem lengthsFromRight_concat (parts : List (List Glyph)) (last : List Glyph) :
    lengthsFromRight (parts ++ [last]) = last.length :: lengthsFromRight parts := by
  simp [lengthsFromRight]

/-- The search finds parts whenever there are some, with the literals furthest to the right. Literals but
the rightmost have to be neutral: what stands on the left of a literal is tried as one expression. -/
theorem partsFromRight_of_parted : ∀ {literals : List (List Char)} {gs : List Glyph}
    {parts : List (List Glyph)}, (∀ literal ∈ literals.tail, IsNeutral literal) →
      Parted literals.reverse parts gs → ∃ found, partsFromRight literals gs = some found ∧
        ¬ List.Lex (· < ·) (lengthsFromRight parts) (found.map List.length)
  | [], gs, parts, _, h => by
    obtain ⟨before, last, rest, rfl, rfl, hwoven, hlast, hsingle⟩ := h
    cases hwoven
    exact ⟨[last], partsFromRight_nil.mpr ⟨rfl, hlast, hsingle⟩, irrefl _⟩
  | literal :: literals, gs, parts, hneutral, h => by
    rw [List.reverse_cons, parted_concat] at h
    obtain ⟨before, last, left, written, rfl, rfl, hparted, hspells, hlast, hsingle⟩ := h
    have hall : ∀ l ∈ literals.reverse, IsNeutral l := fun l hl => hneutral l (List.mem_reverse.mp hl)
    have htail : ∀ l ∈ literals.tail, IsNeutral l := fun l hl => hneutral l (List.mem_of_mem_tail hl)
    have hpos : 1 ≤ left.length := by
      obtain ⟨_, part, _, _, rfl, _, hpart, _⟩ := hparted
      have := List.length_pos_of_ne_nil hpart
      rw [List.length_append]
      omega
    have hlastpos := List.length_pos_of_ne_nil hlast
    have hwritten := hspells.length
    have hlength : (left ++ written ++ last).length = left.length + written.length + last.length := by
      simp only [List.length_append]
    have hdivides : dividesAt literal (left ++ written ++ last) left.length = true :=
      (dividesAt_iff (by omega)).mpr
        ⟨left, written, last, rfl, rfl, hspells, hparted.single hall, hsingle⟩
    obtain ⟨place, hfound⟩ := divideRight_isSome hpos (by omega) hdivides
    have hlater := (divideRight_eq_some hfound).2
    obtain ⟨left', written', right', heq, rfl, -, hspells', hsingle', -, hrest⟩ :=
      partsFromRight_divided literals hfound
    have hlength' := congrArg List.length heq
    simp only [List.length_append] at hlength'
    have hwritten' := hspells'.length
    have hle : left.length ≤ left'.length := by
      by_contra hlt
      rw [hlater left.length (by omega) (by omega)] at hdivides
      cases hdivides
    -- the left side that is found is the given one, or it goes on to the right
    have hhead : left' = left ++ (written ++ last).take (left'.length - left.length) := by
      have htake := congrArg (List.take left'.length) heq
      rw [List.append_assoc left' written' right', List.take_left, List.append_assoc,
        List.take_append, List.take_of_length_le hle] at htake
      exact htake.symm
    rw [hrest, lengthsFromRight_concat]
    rcases Nat.lt_or_ge left.length left'.length with hlt | hge
    · rw [hhead] at hsingle'
      obtain ⟨parts', hparted'⟩ := hparted.extend hall hsingle'
      rw [← hhead] at hparted'
      obtain ⟨found, hsome, -⟩ := partsFromRight_of_parted htail hparted'
      refine ⟨right' :: found, by rw [hsome]; rfl, ?_⟩
      rw [List.map_cons, List.cons_lex_cons_iff]
      omega
    · have hsame : left' = left := by
        rw [hhead, Nat.sub_eq_zero_of_le hge, List.take_zero, List.append_nil]
      obtain ⟨found, hsome, hbound⟩ := partsFromRight_of_parted htail hparted
      refine ⟨right' :: found, by rw [hsame, hsome]; rfl, ?_⟩
      rw [List.map_cons, List.cons_lex_cons_iff]
      rintro (h | h)
      · omega
      · exact hbound h.2

/-! ## Matching -/

theorem match_of_others_nil (hothers : p.others = []) : p.match? gs = some parts ↔ Spells p.first gs ∧ parts = [] := by
  unfold match?
  rw [hothers, List.reverse_nil]
  simp only
  split
  · rename_i hgs
    rw [Bool.and_eq_true, beq_iff_eq, startsWith_iff] at hgs
    obtain ⟨hlength, written, rest, hspells, rfl⟩ := hgs
    have hrest : rest = [] := by
      rw [List.length_append, hspells.length] at hlength
      exact List.eq_nil_of_length_eq_zero (by omega)
    rw [hrest, List.append_nil, Option.some.injEq, eq_comm]
    exact (and_iff_right hspells).symm
  · rename_i hgs
    refine iff_of_false nofun fun h => hgs ?_
    rw [Bool.and_eq_true, beq_iff_eq, startsWith_iff]
    exact ⟨h.1.length, gs, [], h.1, (List.append_nil gs).symm⟩

theorem match_of_others_concat {middle : List (List Char)} {last : List Char} (hothers : p.others = middle ++ [last]) :
    p.match? gs = some parts ↔ ∃ written body final, gs = written ++ body ++ final ∧
      Spells p.first written ∧ Spells last final ∧ body ≠ [] ∧
      partsFromRight middle.reverse body = some parts.reverse := by
  have hreverse : ∀ body : List Glyph, (partsFromRight middle.reverse body).map List.reverse = some parts ↔
      partsFromRight middle.reverse body = some parts.reverse := by
    intro body
    rw [Option.map_eq_some_iff]
    constructor
    · rintro ⟨found, hfound, rfl⟩
      rw [hfound, List.reverse_reverse]
    · exact fun h => ⟨_, h, List.reverse_reverse parts⟩
  unfold match?
  rw [hothers, List.reverse_append, List.reverse_singleton, List.singleton_append]
  simp only
  constructor
  · intro h
    split at h
    · cases h
    rename_i hlong
    split at h
    · cases h
    rename_i hends
    rw [Bool.or_eq_true, not_or, Bool.not_eq_true', Bool.not_eq_false, Bool.not_eq_true',
      Bool.not_eq_false, startsWith_iff, startsWith_iff] at hends
    obtain ⟨⟨written, rest, hfirst, rfl⟩, final, tail, hlast, hdrop⟩ := hends
    have hwritten := hfirst.length
    have hfinal := hlast.length
    rw [List.length_append] at hlong hdrop
    have htail : tail = [] := by
      have := congrArg List.length hdrop
      simp only [List.length_drop, List.length_append] at this
      exact List.eq_nil_of_length_eq_zero (by omega)
    have hskip : written.length + rest.length - last.length - written.length = rest.length - last.length := by omega
    rw [htail, List.append_nil, List.drop_append, List.drop_of_length_le (by omega), hskip,
      List.nil_append] at hdrop
    refine ⟨written, rest.take (rest.length - last.length), final, ?_, hfirst, hlast, ?_, ?_⟩
    · rw [List.append_assoc, ← hdrop, List.take_append_drop]
    · exact List.ne_nil_of_length_pos (by rw [List.length_take]; omega)
    · rw [hreverse, List.length_append, List.take_append, List.take_of_length_le (by omega), hskip,
        ← hwritten, List.drop_left] at h
      exact h
  · rintro ⟨written, body, final, rfl, hfirst, hlast, hbody, hparts⟩
    have hwritten := hfirst.length
    have hfinal := hlast.length
    have hpos := List.length_pos_of_ne_nil hbody
    have hcut : (written ++ body ++ final).length - last.length = (written ++ body).length := by
      simp only [List.length_append]
      omega
    rw [hcut, List.take_left, ← hwritten, List.drop_left, List.drop_left, if_neg, if_neg]
    · exact (hreverse body).mpr hparts
    · rw [Bool.or_eq_true, not_or, Bool.not_eq_true', Bool.not_eq_false, Bool.not_eq_true',
        Bool.not_eq_false, startsWith_iff, startsWith_iff]
      exact ⟨⟨written, body ++ final, hfirst, List.append_assoc ..⟩, final, [], hlast, (List.append_nil final).symm⟩
    · simp only [List.length_append]
      omega

theorem cut_of_match (h : p.match? gs = some parts) : p.Cut gs parts := by
  rcases List.eq_nil_or_concat' p.others with hothers | ⟨middle, last, hothers⟩
  · obtain ⟨hspells, rfl⟩ := (match_of_others_nil hothers).mp h
    exact ⟨gs, [], hspells, hothers ▸ .nil, (List.append_nil gs).symm⟩
  obtain ⟨written, body, final, rfl, hfirst, hlast, -, hparts⟩ := (match_of_others_concat hothers).mp h
  obtain ⟨before, part, inner, hbefore, rfl, hwoven, hpart, hsingle⟩ := parted_of_partsFromRight hparts
  rw [List.reverse_reverse] at hbefore hwoven
  refine ⟨written, inner ++ part ++ final, hfirst, ?_, List.append_assoc ..⟩
  rw [hothers, woven_concat]
  exact ⟨before, part, inner, final, hbefore, rfl, hwoven, hpart, hsingle, hlast⟩

/-- What a pattern that joins can cut is matched, and no cut has the literals further to the right. -/
theorem match_of_cut (hjoins : p.Joins) (h : p.Cut gs parts) : ∃ found, p.match? gs = some found ∧
      ¬ List.Lex (· < ·) (lengthsFromRight parts) (lengthsFromRight found) := by
  obtain ⟨written, rest, hfirst, hwoven, rfl⟩ := h
  rcases List.eq_nil_or_concat' p.others with hothers | ⟨middle, last, hothers⟩
  · rw [hothers] at hwoven
    cases hwoven
    refine ⟨[], (match_of_others_nil hothers).mpr ⟨?_, rfl⟩, irrefl _⟩
    rw [List.append_nil]
    exact hfirst
  rw [hothers, woven_concat] at hwoven
  obtain ⟨before, part, inner, final, rfl, rfl, hwoven, hpart, hsingle, hlast⟩ := hwoven
  have hneutral : ∀ literal ∈ middle.reverse.tail, IsNeutral literal := by
    rw [List.tail_reverse]
    intro literal hliteral
    refine hjoins literal ?_
    rw [hothers, List.dropLast_concat]
    exact List.mem_reverse.mp hliteral
  have hparted : Parted middle.reverse.reverse (before ++ [part]) (inner ++ part) := by
    rw [List.reverse_reverse]
    exact ⟨before, part, inner, rfl, rfl, hwoven, hpart, hsingle⟩
  obtain ⟨found, hfound, hbound⟩ := partsFromRight_of_parted hneutral hparted
  refine ⟨found.reverse, (match_of_others_concat hothers).mpr
    ⟨written, inner ++ part, final, (List.append_assoc ..).symm, hfirst, hlast, ?_, ?_⟩, ?_⟩
  · simp [hpart]
  · rw [List.reverse_reverse]
    exact hfound
  · rw [lengthsFromRight, lengthsFromRight, List.map_reverse, List.reverse_reverse]
    exact hbound

end Pattern

end CrossAssembler
