import CrossAssembler.Proofs.Source.Parts

/-!
# Splitting undoes joining

Principal result: `splitsBack_joined` — pieces that are joined are split again. An empty piece stands after all
the blanks around it.
-/

namespace CrossAssembler

open Text

/-! ## Balanced text -/

/-- What may stand between two quotes: a backslash takes the next character along, and no other quote of that
kind stands there. -/
inductive QuotedBody (quote : Char) : List Char → Prop
  | done : QuotedBody quote []
  | plain {c : Char} {rest : List Char} :
      c ≠ '\\' → c ≠ quote → QuotedBody quote rest → QuotedBody quote (c :: rest)
  | escape {rest : List Char} (c : Char) : QuotedBody quote rest → QuotedBody quote ('\\' :: c :: rest)

/-- A text that closes `depth` brackets more than it opens, never one that is not open, in which all quotes are
closed and a separator stands only inside brackets and quotes. -/
inductive Balanced (separator : Char) : Nat → List Char → Prop
  | done : Balanced separator 0 []
  | quoted {depth : Nat} {body rest : List Char} {quote : Char} : Quoting.isQuote quote = true →
      QuotedBody quote body → Balanced separator depth rest →
        Balanced separator depth (quote :: body ++ quote :: rest)
  | opening {depth : Nat} {rest : List Char} {c : Char} : Nesting.opens c = true →
      Balanced separator (depth + 1) rest → Balanced separator depth (c :: rest)
  | closing {depth : Nat} {rest : List Char} {c : Char} : Nesting.closes c = true →
      Balanced separator depth rest → Balanced separator (depth + 1) (c :: rest)
  | plain {depth : Nat} {rest : List Char} {c : Char} : Quoting.isQuote c = false →
      Nesting.opens c = false → Nesting.closes c = false → (c = separator → 0 < depth) →
        Balanced separator depth rest → Balanced separator depth (c :: rest)

variable {separator : Char}
variable {c : Char}

/-- Puts a text before the first piece. -/
def prepend (cs : List Char) : List (List Char) → List (List Char)
  | [] => [cs]
  | piece :: pieces => (cs ++ piece) :: pieces

theorem prepend_nil {pieces : List (List Char)} (h : pieces ≠ []) : prepend [] pieces = pieces := by
  cases pieces with
  | nil => exact absurd rfl h
  | cons piece pieces => rfl

theorem prepend_append (xs ys : List Char) (pieces : List (List Char)) :
    prepend (xs ++ ys) pieces = prepend xs (prepend ys pieces) := by
  cases pieces with
  | nil => rfl
  | cons piece pieces => exact congrArg (· :: pieces) (List.append_assoc xs ys piece)

theorem piecesFrom_cons_of_not {n : Nesting} (h : (n.isFree c && c == separator) = false)
    (cs : List Char) : piecesFrom separator n (c :: cs) = prepend [c] (piecesFrom separator (n.step c) cs) := by
  rw [piecesFrom]
  simp only [h]
  cases piecesFrom separator (n.step c) cs <;> rfl

/-- A text is read from one place to another, and no character on the way is one to stop at. -/
inductive Passes (stops : Nesting → Char → Bool) : Nesting → List Char → Nesting → Prop
  | done (n : Nesting) : Passes stops n [] n
  | more {n m : Nesting} {c : Char} {cs : List Char} : stops n c = false →
      Passes stops (n.step c) cs m → Passes stops n (c :: cs) m

/-- Whether a character ends a piece. -/
def endsPiece (separator : Char) (n : Nesting) (c : Char) : Bool := n.isFree c && c == separator

section Passing

variable {stops : Nesting → Char → Bool}

theorem Passes.trans {n k m : Nesting} {xs ys : List Char} (h : Passes stops n xs m)
    (h' : Passes stops m ys k) : Passes stops n (xs ++ ys) k := by
  induction h with
  | done n => exact h'
  | more hstops _ ih => exact .more hstops (ih h')

theorem Passes.piecesFrom {n m : Nesting} {cs : List Char} (h : Passes (endsPiece separator) n cs m)
    (rest : List Char) : piecesFrom separator n (cs ++ rest) = prepend cs (piecesFrom separator m rest) := by
  induction h with
  | done n => exact (prepend_nil (piecesFrom_ne_nil _ _ _)).symm
  | more hstops _ ih =>
    rw [List.cons_append, piecesFrom_cons_of_not hstops, ih, ← prepend_append]
    rfl

/-! ## Quotes and brackets -/

variable {quote c : Char} {depth : Nat} {cs : List Char} {m : Nesting}

theorem step_quote (h : Quoting.isQuote quote = true) : (Quoting.inside quote false).step quote = .outside := by
  have hne : quote ≠ '\\' := by
    rintro rfl
    cases h
  rw [Quoting.step, if_neg hne, if_pos rfl]

theorem step_plain (hback : c ≠ '\\') (hne : c ≠ quote) :
    (Quoting.inside quote false).step c = .inside quote false := by
  rw [Quoting.step, if_neg hback, if_neg hne]

theorem QuotedBody.passes (hstops : ∀ escaped c, stops ⟨.inside quote escaped, depth⟩ c = false)
    {body : List Char} (h : QuotedBody quote body) :
    Passes stops ⟨.inside quote false, depth⟩ body ⟨.inside quote false, depth⟩ := by
  induction h with
  | done => exact .done _
  | @plain c _ hback hne _ ih =>
    have hstep : Nesting.step ⟨.inside quote false, depth⟩ c = ⟨.inside quote false, depth⟩ :=
      congrArg (Nesting.mk · depth) (step_plain hback hne)
    exact .more (hstops _ _) (by rwa [hstep])
  | escape c _ ih => exact .more (hstops _ _) (.more (hstops _ _) ih)

theorem QuotedBody.passes_quoted (hquote : Quoting.isQuote quote = true)
    (houtside : stops ⟨.outside, depth⟩ quote = false)
    (hinside : ∀ escaped c, stops ⟨.inside quote escaped, depth⟩ c = false) {body : List Char}
    (h : QuotedBody quote body) :
    Passes stops ⟨.outside, depth⟩ (quote :: body ++ [quote]) ⟨.outside, depth⟩ := by
  have hopen : Nesting.step ⟨.outside, depth⟩ quote = ⟨.inside quote false, depth⟩ := by
    have hcovers : Quoting.outside.covers quote = true := hquote
    rw [Nesting.step, hcovers, Quoting.step, hquote]
    rfl
  have hclose : Nesting.step ⟨.inside quote false, depth⟩ quote = ⟨.outside, depth⟩ :=
    congrArg (Nesting.mk · depth) (step_quote hquote)
  refine .more houtside ?_
  rw [hopen]
  refine (h.passes hinside).trans (.more (hinside _ _) ?_)
  rw [hclose]
  exact .done _

theorem step_outside (h : Quoting.isQuote c = false) : Nesting.step ⟨.outside, depth⟩ c =
    ⟨.outside, if Nesting.opens c then depth + 1 else if Nesting.closes c then depth - 1 else depth⟩ := by
  have hcovers : Quoting.outside.covers c = false := h
  rw [Nesting.step, hcovers, Quoting.step, h]
  simp only [Bool.false_eq_true, if_false]
  split
  · rfl
  · split <;> rfl

theorem step_start (hquote : Quoting.isQuote c = false) (hopens : Nesting.opens c = false)
    (hcloses : Nesting.closes c = false) : Nesting.start.step c = .start := by
  rw [Nesting.start, step_outside hquote, hopens, hcloses]
  rfl

theorem isQuote_of_opens (h : Nesting.opens c = true) : Quoting.isQuote c = false := by
  simp only [Nesting.opens, Bool.or_eq_true, beq_iff_eq] at h
  rcases h with (rfl | rfl) | rfl <;> rfl

theorem isQuote_of_closes (h : Nesting.closes c = true) : Quoting.isQuote c = false := by
  simp only [Nesting.closes, Bool.or_eq_true, beq_iff_eq] at h
  rcases h with (rfl | rfl) | rfl <;> rfl

theorem opens_of_closes (h : Nesting.closes c = true) : Nesting.opens c = false := by
  simp only [Nesting.closes, Bool.or_eq_true, beq_iff_eq] at h
  rcases h with (rfl | rfl) | rfl <;> rfl

end Passing

theorem endsPiece_quote {quote : Char} (h : Quoting.isQuote quote = true) (n : Nesting) :
    endsPiece separator n quote = false := by
  have hcovers : n.quoting.covers quote = true := by rw [Quoting.covers, h, Bool.or_true]
  rw [endsPiece, Nesting.isFree, hcovers]
  rfl

theorem Balanced.passes {depth : Nat} {cs : List Char} (h : Balanced separator depth cs) :
    Passes (endsPiece separator) ⟨.outside, depth⟩ cs .start := by
  induction h with
  | done => exact .done _
  | quoted hquote hbody _ ih =>
    rw [List.append_cons]
    exact (hbody.passes_quoted hquote (endsPiece_quote hquote _) fun _ _ => rfl).trans ih
  | opening hopens _ ih =>
    refine .more ?_ ?_
    · simp only [endsPiece, Nesting.isFree, hopens, Bool.not_true, Bool.and_false, Bool.false_and]
    · rwa [step_outside (isQuote_of_opens hopens), if_pos hopens]
  | closing hcloses _ ih =>
    refine .more ?_ ?_
    · simp only [endsPiece, Nesting.isFree, hcloses, Bool.not_true, Bool.and_false, Bool.false_and]
    · rw [step_outside (isQuote_of_closes hcloses), opens_of_closes hcloses, if_neg Bool.false_ne_true,
        if_pos hcloses]
      exact ih
  | @plain depth _ c hquote hopens hcloses hseparator _ ih =>
    refine .more ?_ ?_
    · by_cases hc : c = separator
      · have hdepth : (depth == 0) = false := beq_false_of_ne (Nat.ne_of_gt (hseparator hc))
        simp only [endsPiece, Nesting.isFree, hdepth, Bool.and_false, Bool.false_and]
      · rw [endsPiece, beq_false_of_ne hc, Bool.and_false]
    · rwa [step_outside hquote, hopens, hcloses]

/-! ## Pieces with blanks around them -/

/-- A character that may separate pieces: no quote, no bracket and no blank. -/
structure IsSeparator (c : Char) : Prop where
  not_quote : Quoting.isQuote c = false
  not_opens : Nesting.opens c = false
  not_closes : Nesting.closes c = false
  not_blank : isBlank c = false

instance (c : Char) : Decidable (IsSeparator c) :=
  decidable_of_iff (Quoting.isQuote c = false ∧ Nesting.opens c = false ∧ Nesting.closes c = false ∧
      isBlank c = false)
    ⟨fun h => ⟨h.1, h.2.1, h.2.2.1, h.2.2.2⟩, fun h => ⟨h.1, h.2, h.3, h.4⟩⟩

/-- A balanced piece, which neither begins nor ends with a blank, and the blanks around it. -/
structure Slot (separator : Char) where
  before : List Char
  piece : List Char
  after : List Char
  all_before : before.all isBlank = true
  all_after : after.all isBlank = true
  balanced : Balanced separator 0 piece
  none_first : piece.head?.any isBlank = false
  none_last : piece.getLast?.any isBlank = false

namespace Slot

theorem blank_before (s : Slot separator) : ∀ c ∈ s.before, isBlank c = true := List.all_eq_true.mp s.all_before

theorem blank_after (s : Slot separator) : ∀ c ∈ s.after, isBlank c = true := List.all_eq_true.mp s.all_after

theorem head_not_blank (s : Slot separator) : ∀ c ∈ s.piece.head?, isBlank c = false := by
  intro c hc
  have hnone := s.none_first
  rwa [hc] at hnone

theorem last_not_blank (s : Slot separator) : ∀ c ∈ s.piece.getLast?, isBlank c = false := by
  intro c hc
  have hnone := s.none_last
  rwa [hc] at hnone

/-- The piece with the blanks around it. -/
def text (s : Slot separator) : List Char := s.before ++ s.piece ++ s.after

/-- What comes before the piece in its slot. An empty piece has no place of its own among the blanks and comes
after all of them. -/
def lead (s : Slot separator) : List Char := if s.piece = [] then s.before ++ s.after else s.before

end Slot

/-- Slots with a separator between them. -/
def joined (separator : Char) (slots : List (Slot separator)) : List Char :=
  [separator].intercalate (slots.map Slot.text)

/-- Whether splitting a token gives back the pieces of slots in their order, each in its place: as many bytes
after the start of the token as there are in the slots and separators before it and, in its own slot, before
the piece. -/
def SplitsBack (lead : Slot separator → List Char) (slots : List (Slot separator)) (t : Token) : Prop :=
  (t.splitTopLevel separator).map (fun u => u.text.toList) = slots.map Slot.piece ∧
  ∀ earlier s later, slots = earlier ++ s :: later →
    let skipped := byteLength (earlier.flatMap (fun e => e.text ++ [separator]) ++ lead s)
    (t.splitTopLevel separator)[earlier.length]? =
      some ⟨t.source, t.line, t.column + skipped, t.offset + skipped, String.ofList s.piece⟩

theorem not_mark_of_isBlank (h : isBlank c = true) :
    Quoting.isQuote c = false ∧ Nesting.opens c = false ∧ Nesting.closes c = false := by
  refine ⟨Bool.eq_false_iff.mpr fun hc => ?_, Bool.eq_false_iff.mpr fun hc => ?_, Bool.eq_false_iff.mpr fun hc => ?_⟩
  · simp only [Quoting.isQuote, Bool.or_eq_true, beq_iff_eq] at hc
    rcases hc with rfl | rfl <;> cases h
  · simp only [Nesting.opens, Bool.or_eq_true, beq_iff_eq] at hc
    rcases hc with (rfl | rfl) | rfl <;> cases h
  · simp only [Nesting.closes, Bool.or_eq_true, beq_iff_eq] at hc
    rcases hc with (rfl | rfl) | rfl <;> cases h

theorem passes_blanks {stops : Nesting → Char → Bool} (hstops : ∀ c, isBlank c = true → stops .start c = false)
    {blanks : List Char} (h : ∀ c ∈ blanks, isBlank c = true) : Passes stops .start blanks .start := by
  induction blanks with
  | nil => exact .done _
  | cons c cs ih =>
    obtain ⟨hc, hcs⟩ := List.forall_mem_cons.mp h
    obtain ⟨hquote, hopens, hcloses⟩ := not_mark_of_isBlank hc
    refine .more (hstops c hc) ?_
    rw [step_start hquote hopens hcloses]
    exact ih hcs

theorem endsPiece_blank (hseparator : IsSeparator separator) (n : Nesting) (h : isBlank c = true) :
    endsPiece separator n c = false := by
  have hne : (c == separator) = false := beq_false_of_ne fun heq => by
    rw [heq, hseparator.not_blank] at h
    cases h
  rw [endsPiece, hne, Bool.and_false]

theorem Slot.passes (hseparator : IsSeparator separator) (s : Slot separator) :
    Passes (endsPiece separator) .start s.text .start :=
  have hblank := fun c => endsPiece_blank (c := c) hseparator .start
  ((passes_blanks hblank s.blank_before).trans s.balanced.passes).trans (passes_blanks hblank s.blank_after)

theorem piecesFrom_separator (hseparator : IsSeparator separator) (cs : List Char) :
    piecesFrom separator .start (separator :: cs) = [] :: piecesFrom separator .start cs := by
  have hfree : Nesting.start.isFree separator = true := by
    have hcovers : Quoting.outside.covers separator = false := hseparator.not_quote
    simp only [Nesting.isFree, Nesting.start, hcovers, hseparator.not_opens, hseparator.not_closes]
    rfl
  rw [piecesFrom, hfree, step_start hseparator.not_quote hseparator.not_opens hseparator.not_closes, beq_self_eq_true]
  rfl

theorem piecesFrom_joined (hseparator : IsSeparator separator) {slots : List (Slot separator)}
    (hne : slots ≠ []) : piecesFrom separator .start (joined separator slots) = slots.map Slot.text := by
  induction slots with
  | nil => exact absurd rfl hne
  | cons s slots ih =>
    cases slots with
    | nil =>
      have hpieces := (s.passes hseparator).piecesFrom []
      rw [List.append_nil] at hpieces
      rw [joined, List.map_cons, List.map_nil, List.intercalate_singleton, hpieces]
      exact congrArg (· :: []) (List.append_nil _)
    | cons next slots =>
      have hrest := ih (List.cons_ne_nil _ _)
      rw [joined, List.map_cons, List.map_cons, List.intercalate_cons_cons, List.append_assoc,
        (s.passes hseparator).piecesFrom, List.singleton_append, piecesFrom_separator hseparator]
      rw [joined, List.map_cons] at hrest
      rw [hrest, prepend, List.append_nil]

/-! ## Pieces in their places -/

section Trimming

variable {blanks cs : List Char}

theorem dropWhile_of_head (h : ∀ c ∈ cs.head?, isBlank c = false) : cs.dropWhile isBlank = cs := by
  cases cs with
  | nil => rfl
  | cons c cs => exact List.dropWhile_cons_of_neg (by rw [h c rfl]; exact Bool.false_ne_true)

theorem trimStart_blanks_append (hblanks : ∀ c ∈ blanks, isBlank c = true)
    (h : ∀ c ∈ cs.head?, isBlank c = false) : trimStart (blanks ++ cs) = cs := by
  rw [trimStart, List.dropWhile_append_of_pos hblanks, dropWhile_of_head h]

theorem trimEnd_append_blanks (hblanks : ∀ c ∈ blanks, isBlank c = true)
    (h : ∀ c ∈ cs.getLast?, isBlank c = false) : trimEnd (cs ++ blanks) = cs := by
  rw [trimEnd, List.reverse_append, List.dropWhile_append_of_pos fun c hc => hblanks c (List.mem_reverse.mp hc),
    dropWhile_of_head (by rwa [List.head?_reverse]), List.reverse_reverse]

end Trimming

namespace Slot

variable (s : Slot separator)

theorem takeWhile_text : s.text.takeWhile isBlank = s.lead := by
  unfold text lead
  split
  · rename_i hnil
    rw [hnil, List.append_nil]
    exact List.takeWhile_eq_self_iff.mpr fun c hc =>
      (List.mem_append.mp hc).elim (s.blank_before c) (s.blank_after c)
  · rename_i hne
    obtain ⟨c, cs, hcs⟩ := List.exists_cons_of_ne_nil hne
    have hc : isBlank c = false := s.head_not_blank c (by rw [hcs]; rfl)
    rw [List.append_assoc, List.takeWhile_append_of_pos s.blank_before, hcs, List.cons_append,
      List.takeWhile_cons_of_neg (by rw [hc]; exact Bool.false_ne_true), List.append_nil]

theorem trim_text : trim s.text = s.piece := by
  by_cases hnil : s.piece = []
  · have hblank : ∀ c ∈ s.before ++ s.after, isBlank c = true := fun c hc =>
      (List.mem_append.mp hc).elim (s.blank_before c) (s.blank_after c)
    have hstart : trimStart (s.before ++ s.after) = [] := by
      rw [← List.append_nil (s.before ++ s.after)]
      exact trimStart_blanks_append hblank nofun
    rw [text, hnil, List.append_nil, trim, hstart]
    rfl
  · have hhead : ∀ c ∈ (s.piece ++ s.after).head?, isBlank c = false := by
      rw [List.head?_append_of_ne_nil _ hnil]
      exact s.head_not_blank
    rw [text, List.append_assoc, trim, trimStart_blanks_append s.blank_before hhead,
      trimEnd_append_blanks s.blank_after s.last_not_blank]

theorem trimmed_place (t : Token) (skipped : Nat) :
    (t.place skipped s.text).trimmed = t.place (skipped + byteLength s.lead) s.piece := by
  simp only [Token.trimmed, Token.place, String.toList_ofList, s.takeWhile_text, s.trim_text, Nat.add_assoc]

end Slot

/-! ## Slots without the blanks at the ends -/

section Ends

variable {slots : List (Slot separator)}

/-- Whether there are pieces and none of them is empty. -/
def Solid (pieces : List (List Char)) : Prop := pieces ≠ [] ∧ [] ∉ pieces

/-- A slot without the blanks before its piece. -/
def Slot.withoutBefore (s : Slot separator) : Slot separator := { s with before := [], all_before := rfl }

/-- A slot without the blanks after its piece. -/
def Slot.withoutAfter (s : Slot separator) : Slot separator := { s with after := [], all_after := rfl }

theorem Slot.text_withoutBefore (s : Slot separator) : s.withoutBefore.text = s.piece ++ s.after := rfl

theorem Slot.text_withoutAfter (s : Slot separator) : s.withoutAfter.text = s.before ++ s.piece :=
  List.append_nil _

theorem joined_cons (s : Slot separator) (slots : List (Slot separator)) :
    joined separator (s :: slots) = s.text ++ slots.flatMap fun e => separator :: e.text := by
  induction slots generalizing s with
  | nil => rw [joined, List.map_singleton, List.intercalate_singleton, List.flatMap_nil, List.append_nil]
  | cons next slots ih =>
    have hnext := ih next
    rw [joined] at hnext ⊢
    rw [List.map_cons, List.map_cons, List.intercalate_cons_cons, ← List.map_cons, hnext, List.flatMap_cons]
    simp only [List.append_assoc, List.cons_append, List.nil_append]

theorem joined_concat (slots : List (Slot separator)) (s : Slot separator) :
    joined separator (slots ++ [s]) = (slots.flatMap fun e => e.text ++ [separator]) ++ s.text := by
  induction slots with
  | nil => rw [List.nil_append, joined, List.map_singleton, List.intercalate_singleton]; rfl
  | cons first slots ih =>
    have hne : ((slots ++ [s]).map Slot.text) ≠ [] := by simp
    rw [joined] at ih ⊢
    rw [List.cons_append, List.map_cons, List.intercalate_cons_of_ne_nil hne, ih, List.flatMap_cons]
    simp only [List.append_assoc]

/-- The blanks at the start of joined slots are those before the first piece, unless it is empty. -/
theorem exists_trimStart_joined (h : Solid (slots.map Slot.piece)) :
    ∃ slots' : List (Slot separator), trimStart (joined separator slots) = joined separator slots' ∧
      slots'.map Slot.piece = slots.map Slot.piece := by
  cases slots with
  | nil => exact ⟨[], rfl, rfl⟩
  | cons s slots =>
    refine ⟨s.withoutBefore :: slots, ?_, rfl⟩
    rw [joined_cons, joined_cons, s.text_withoutBefore, Slot.text, List.append_assoc s.before, List.append_assoc s.before]
    refine trimStart_blanks_append s.blank_before ?_
    have hne : s.piece ≠ [] := fun hnil => h.2 (List.mem_map.mpr ⟨s, List.mem_cons_self, hnil⟩)
    rw [List.append_assoc, List.head?_append_of_ne_nil _ hne]
    exact s.head_not_blank

theorem exists_trimEnd_joined (xs : List Char) (h : Solid (slots.map Slot.piece)) :
    ∃ slots' : List (Slot separator), trimEnd (xs ++ joined separator slots) = xs ++ joined separator slots' ∧
      slots'.map Slot.piece = slots.map Slot.piece := by
  obtain ⟨init, s, rfl⟩ := (List.eq_nil_or_concat' slots).resolve_left (mt List.map_eq_nil_iff.mpr h.1)
  refine ⟨init ++ [s.withoutAfter], ?_, ?_⟩
  · rw [joined_concat, joined_concat, s.text_withoutAfter, Slot.text]
    generalize init.flatMap (fun e => e.text ++ [separator]) = earlier
    have hmove : xs ++ (earlier ++ (s.before ++ s.piece ++ s.after)) =
        (xs ++ earlier ++ s.before) ++ s.piece ++ s.after := by simp only [List.append_assoc]
    have hlast : ((xs ++ earlier ++ s.before) ++ s.piece).getLast? = s.piece.getLast? :=
      List.getLast?_append_of_ne_nil _ fun hnil => h.2 (List.mem_map.mpr ⟨s, by simp, hnil⟩)
    rw [hmove, trimEnd_append_blanks s.blank_after (by rw [hlast]; exact s.last_not_blank)]
    simp only [List.append_assoc]
  · rw [List.map_append, List.map_append]
    rfl

/-- Joined slots without the blanks at either end are joined slots with the same pieces. -/
theorem exists_trim_joined (h : Solid (slots.map Slot.piece)) :
    ∃ slots' : List (Slot separator), trim (joined separator slots) = joined separator slots' ∧
      slots'.map Slot.piece = slots.map Slot.piece := by
  obtain ⟨started, hstart, hsame⟩ := exists_trimStart_joined h
  obtain ⟨ended, hend, hsame'⟩ := exists_trimEnd_joined [] (hsame ▸ h)
  exact ⟨ended, by rw [trim, hstart]; exact hend, hsame'.trans hsame⟩

end Ends

theorem getElem?_placeAll (t : Token) (gap skipped : Nat) (earlier later : List (Slot separator))
    (s : Slot separator) :
    (t.placeAll gap skipped ((earlier ++ s :: later).map Slot.text))[earlier.length]? =
      some (t.place (skipped + (earlier.map fun e => byteLength e.text + gap).sum + byteLength s.lead) s.piece) := by
  induction earlier generalizing skipped with
  | nil => rw [List.nil_append, List.map_cons, Token.placeAll, s.trimmed_place]; rfl
  | cons e earlier ih =>
    rw [List.cons_append, List.map_cons, Token.placeAll, List.length_cons, List.getElem?_cons_succ, ih,
      List.map_cons, List.sum_cons]
    congr 2
    omega

theorem map_text_placeAll (t : Token) (gap skipped : Nat) (slots : List (Slot separator)) :
    (t.placeAll gap skipped (slots.map Slot.text)).map (fun u => u.text.toList) = slots.map Slot.piece := by
  induction slots generalizing skipped with
  | nil => rfl
  | cons s slots ih =>
    rw [List.map_cons, Token.placeAll, s.trimmed_place, List.map_cons, ih, Token.place, String.toList_ofList]
    rfl

theorem exists_not_blank_joined (hseparator : IsSeparator separator) {slots : List (Slot separator)}
    (hne : slots ≠ []) (hpiece : slots.map Slot.piece ≠ [[]]) :
    ∃ c ∈ joined separator slots, isBlank c = false := by
  rcases slots with _ | ⟨s, _ | ⟨next, slots⟩⟩
  · exact absurd rfl hne
  · have hne : s.piece ≠ [] := fun h => hpiece (by rw [List.map_singleton, h])
    obtain ⟨c, cs, hcs⟩ := List.exists_cons_of_ne_nil hne
    refine ⟨c, ?_, s.head_not_blank c (by rw [hcs]; rfl)⟩
    rw [joined, List.map_singleton, List.intercalate_singleton, Slot.text, hcs]
    simp
  · refine ⟨separator, ?_, hseparator.not_blank⟩
    rw [joined, List.map_cons, List.map_cons, List.intercalate_cons_cons]
    simp

theorem splitTopLevel_joined (hseparator : IsSeparator separator) {slots : List (Slot separator)}
    (hne : slots ≠ []) (hpiece : slots.map Slot.piece ≠ [[]]) {t : Token}
    (ht : t.text.toList = joined separator slots) :
    t.splitTopLevel separator = t.placeAll separator.utf8Size 0 (slots.map Slot.text) := by
  obtain ⟨c, hc, hblank⟩ := exists_not_blank_joined hseparator hne hpiece
  have hall : (joined separator slots).all isBlank = false := List.all_eq_false.mpr ⟨c, hc, by simp [hblank]⟩
  rw [Token.splitTopLevel]
  simp only [ht, hall, Bool.false_eq_true, if_false, piecesFrom_joined hseparator hne]

theorem byteLength_flatMap_text (slots : List (Slot separator)) :
    byteLength (slots.flatMap fun e => e.text ++ [separator]) =
      (slots.map fun e => byteLength e.text + separator.utf8Size).sum := by
  induction slots with
  | nil => rfl
  | cons s slots ih =>
    rw [List.flatMap_cons, byteLength_append, byteLength_append, ih, List.map_cons, List.sum_cons]
    rfl

/-- Pieces joined by a separator, with any blanks around each, are split into the same pieces in the same
order, each in its place; an empty piece stands after the blanks around it. -/
theorem splitsBack_joined (hseparator : IsSeparator separator) {slots : List (Slot separator)}
    (hne : slots ≠ []) (hpiece : slots.map Slot.piece ≠ [[]]) {t : Token}
    (ht : t.text.toList = joined separator slots) : SplitsBack Slot.lead slots t := by
  unfold SplitsBack
  rw [splitTopLevel_joined hseparator hne hpiece ht]
  refine ⟨map_text_placeAll t _ 0 slots, ?_⟩
  rintro earlier s later rfl
  rw [getElem?_placeAll, Nat.zero_add, ← byteLength_flatMap_text, ← byteLength_append]
  rfl

/-- A string with a comma, a list in brackets, an empty piece among blanks and a letter of two bytes. -/
def mixedSlots : List (Slot ',') :=
  [{ before := [' '], piece := ['"', ',', '"'], after := [], all_before := rfl, all_after := rfl,
     balanced := .quoted rfl (.plain (by decide) (by decide) .done) .done, none_first := rfl, none_last := rfl },
   { before := [' '], piece := ['(', '1', ',', '2', ')'], after := [' '], all_before := rfl, all_after := rfl,
     balanced := .opening rfl (.plain rfl rfl rfl (fun _ => Nat.one_pos) (.plain rfl rfl rfl
       (fun _ => Nat.one_pos) (.plain rfl rfl rfl (fun _ => Nat.one_pos) (.closing rfl .done)))),
     none_first := rfl, none_last := rfl },
   { before := [' '], piece := [], after := [' '], all_before := rfl, all_after := rfl, balanced := .done,
     none_first := rfl, none_last := rfl },
   { before := [], piece := ['é'], after := [], all_before := rfl, all_after := rfl,
     balanced := .plain rfl rfl rfl (fun h => absurd h (by decide)) .done, none_first := rfl, none_last := rfl }]

theorem splitsBack_joined_mixedSlots :
    mixedSlots.map Slot.piece = [['"', ',', '"'], ['(', '1', ',', '2', ')'], [], ['é']] ∧
    SplitsBack Slot.lead mixedSlots ⟨0, 3, 4, 40, " \",\", (1,2) ,  ,é"⟩ :=
  ⟨rfl, splitsBack_joined (by decide) (List.cons_ne_nil _ _) (by decide) rfl⟩

/-- A letter, and an empty piece with a blank after it. -/
def trailingSlots : List (Slot ',') :=
  [{ before := [], piece := ['a'], after := [], all_before := rfl, all_after := rfl,
     balanced := .plain rfl rfl rfl (fun h => absurd h (by decide)) .done, none_first := rfl, none_last := rfl },
   { before := [], piece := [], after := [' '], all_before := rfl, all_after := rfl, balanced := .done,
     none_first := rfl, none_last := rfl }]

/-- An empty piece with a blank after it is not found before that blank. -/
theorem empty_piece_after_blanks : ¬ ∀ (separator : Char) (slots : List (Slot separator)) (t : Token),
    IsSeparator separator → slots ≠ [] → slots.map Slot.piece ≠ [[]] →
      t.text.toList = joined separator slots → SplitsBack Slot.before slots t := by
  intro h
  have hsplit := (h ',' trailingSlots ⟨0, 1, 0, 0, "a, "⟩ (by decide) (List.cons_ne_nil _ _) (by decide) rfl).2
    (trailingSlots.take 1) _ [] rfl
  exact absurd hsplit (by decide)

end CrossAssembler
