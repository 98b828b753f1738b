import CrossAssembler.Assembly.Message
import CrossAssembler.Proofs.Expression.Numerals

/-!
# Messages are rendered piece by piece

A format is made of literal pieces and placeholders, and its rendering of what stands for each of them.

* `renderWithin_pieces` — pieces are rendered one after another, from any literal text on.

Principal result: `render_pieces` — the rendering is the texts of all pieces, or the error of the first piece that
has none.
-/

namespace CrossAssembler.Message

open Expression (Spelled)

variable {base : Nat} {text cs before : List Char} {c : Char}

/-! ## Formats -/

/-- The sign in front of a placeholder. -/
def Radix.sign : Radix → List Char
  | plain => []
  | hexadecimal => ['$']
  | binary => ['@']

/-- The base of the digits that a placeholder with a sign asks for. -/
def Radix.base? : Radix → Option Nat
  | plain => none
  | hexadecimal => some 16
  | binary => some 2

/-- A piece of a format: literal text, or a placeholder with the decimal digits of a number. -/
inductive Piece where
  | literal (text : List Char)
  | placeholder (radix : Radix) (digits : List Nat)

/-- The number that decimal digits stand for. -/
def indexOf (digits : List Nat) : Nat := Nat.ofDigits 10 digits.reverse

/-- How a piece is written. -/
def Piece.written : Piece → List Char
  | literal text => text
  | placeholder radix digits => radix.sign ++ '\x7b' :: (digits.map Nat.digitChar ++ ['\x7d'])

/-- Whether a text has no bracket that opens and no sign for a radix at its end. -/
structure IsLiteral (text : List Char) : Prop where
  bracket : '\x7b' ∉ text
  hexadecimal : text.getLast? ≠ some '$'
  binary : text.getLast? ≠ some '@'

/-- Whether a piece is literal text as it may stand before a placeholder, or a placeholder for a number of 64
bits. -/
def Piece.IsValid : Piece → Prop
  | literal text => IsLiteral text
  | placeholder _ digits => digits ≠ [] ∧ (∀ d ∈ digits, d < 10) ∧ indexOf digits < 2 ^ 64

/-- The digits of an integer as a two's complement of 64 bits, the letters in upper case. -/
def twosComplement (base : Nat) (n : Int) : List Char :=
  let residue := (n % 2 ^ 64).toNat
  if residue = 0 then ['0'] else (Nat.digits base residue).reverse.map fun d => d.digitChar.toUpper

/-- Whether a value stands for an integer: a number for its integer part, one character for its code. -/
inductive Counts : Value → Int64 → Prop
  | number (n : Number) : Counts (.number n) n.truncated
  | character (c : Char) : Counts (.string (String.singleton c)) (Int64.ofNat c.toNat)

/-- Whether a text stands for a piece. -/
inductive Shows (values : List Value) : Piece → List Char → Prop
  | literal (text : List Char) : Shows values (.literal text) text
  | plain {digits : List Nat} {v : Value} (h : values[indexOf digits]? = some v) :
      Shows values (.placeholder .plain digits) v.text.toList
  | digits {radix : Radix} {base : Nat} {digits : List Nat} {v : Value} {w : Int64} (hbase : radix.base? = some base)
      (h : values[indexOf digits]? = some v) (hw : Counts v w) :
      Shows values (.placeholder radix digits) (twosComplement base w.toInt)

/-- Whether there is no text for a placeholder, and why. -/
inductive Offends (values : List Value) : Piece → Error → Prop
  | missing {radix : Radix} {digits : List Nat} (h : values[indexOf digits]? = none) :
      Offends values (.placeholder radix digits) (.noArgument (indexOf digits))
  | text {radix : Radix} {base : Nat} {digits : List Nat} {s : String} (hbase : radix.base? = some base)
      (h : values[indexOf digits]? = some (.string s)) (hs : s.length ≠ 1) :
      Offends values (.placeholder radix digits) (.value (.notANumber s))

/-! ## Digits of words -/

theorem toDigits_eq (hbase : 1 < base) (n : Nat) :
    Nat.toDigits base n = if n = 0 then ['0'] else (Nat.digits base n).reverse.map Nat.digitChar := by
  induction n using Nat.strong_induction_on with
  | _ n ih =>
    by_cases hlt : n < base
    · rw [Nat.toDigits_of_lt_base hlt]
      by_cases hzero : n = 0
      · subst hzero
        rfl
      · rw [if_neg hzero, Nat.digits_of_lt base n hzero hlt]
        rfl
    · have hle := Nat.le_of_not_lt hlt
      have hpos : n ≠ 0 := by omega
      have hquotient : n / base ≠ 0 := Nat.div_ne_zero_iff.mpr ⟨by omega, hle⟩
      rw [Nat.toDigits_of_base_le hbase hle, ih _ (Nat.div_lt_self (Nat.pos_of_ne_zero hpos) hbase),
        if_neg hquotient, if_neg hpos, Nat.digits_def' hbase (Nat.pos_of_ne_zero hpos)]
      simp

theorem residue_toInt (w : Int64) : (w.toInt % 2 ^ 64).toNat = w.toUInt64.toNat := by
  have hint : w.toInt = (w.toBitVec.toNat : Int).bmod (2 ^ 64) := BitVec.toInt_eq_toNat_bmod w.toBitVec
  have hlt : (w.toBitVec.toNat : Int) < 2 ^ 64 := by exact_mod_cast w.toBitVec.isLt
  have hmod : w.toInt % 2 ^ 64 = w.toBitVec.toNat := by
    rw [hint]
    refine (Int.bmod_emod ..).trans (Int.emod_eq_of_lt (Int.natCast_nonneg _) ?_)
    exact_mod_cast hlt
  rw [hmod, Int.toNat_natCast]
  rfl

/-- A word is written in the digits of its two's complement. -/
theorem toList_digits (hbase : 1 < base) (w : Int64) :
    (Word.digits base w.toUInt64.toNat).toList = twosComplement base w.toInt := by
  rw [Word.digits, String.toList_ofList, toDigits_eq hbase, twosComplement, residue_toInt]
  split
  · rfl
  · exact List.map_map ..

/-! ## What stands for a piece -/

variable {values : List Value} {p : Piece}

/-- What stands for a piece, by the value that it asks for. -/
def Piece.shown (values : List Value) : Piece → Except Error (List Char)
  | literal text => .ok text
  | placeholder radix digits =>
    match values[indexOf digits]? with
    | none => .error (.noArgument (indexOf digits))
    | some v => (write v radix).map String.toList

theorem write_of_base {radix : Radix} (hbase : radix.base? = some base) (v : Value) :
    (write v radix).map String.toList = (v.toWord.map fun w => twosComplement base w.toInt).mapError Error.value := by
  cases radix with
  | plain => cases hbase
  | hexadecimal =>
    cases hbase
    unfold write
    cases v.toWord with
    | error e => rfl
    | ok w => exact congrArg Except.ok (toList_digits (by decide) w)
  | binary =>
    cases hbase
    unfold write
    cases v.toWord with
    | error e => rfl
    | ok w => exact congrArg Except.ok (toList_digits (by decide) w)

theorem Counts.toWord {v : Value} {w : Int64} (h : Counts v w) : v.toWord = .ok w := by
  cases h with
  | number n => rfl
  | character c => simp [Value.toWord, Value.toNumber, Except.map, Number.truncated]

/-- A value stands for an integer unless it is a text that is not one character. -/
theorem counts_or_text (v : Value) : (∃ w, Counts v w) ∨
    ∃ s, v = .string s ∧ s.length ≠ 1 ∧ v.toWord = .error (.notANumber s) := by
  cases v with
  | number n => exact .inl ⟨_, .number n⟩
  | string s =>
    by_cases hlength : s.length = 1
    · obtain ⟨c, hc⟩ := List.length_eq_one_iff.mp (String.length_toList.trans hlength)
      have hs : s = String.singleton c := String.toList_injective (by simp [hc])
      rw [hs]
      exact .inl ⟨_, .character c⟩
    have hnumber : (Value.string s).toNumber = .error (.notANumber s) := by
      rw [Value.toNumber]
      split
      · rename_i c hc
        exact absurd (String.length_toList.symm.trans (congrArg List.length hc)) hlength
      · rfl
    refine .inr ⟨s, rfl, hlength, ?_⟩
    rw [Value.toWord, hnumber]
    rfl

theorem Shows.shown (h : Shows values p text) : p.shown values = .ok text := by
  cases h with
  | literal text => rfl
  | plain h =>
    rw [Piece.shown, h]
    rfl
  | digits hbase h hw =>
    rw [Piece.shown, h]
    simp only [write_of_base hbase, hw.toWord]
    rfl

theorem Offends.shown {e : Error} (h : Offends values p e) : p.shown values = .error e := by
  cases h with
  | missing h =>
    rw [Piece.shown, h]
  | @text _ _ _ s hbase h hs =>
    have hword : (Value.string s).toWord = .error (.notANumber s) := by
      rcases counts_or_text (.string s) with ⟨w, hw⟩ | ⟨_, hs', -, hword⟩
      · cases hw
        exact absurd (String.length_singleton ..) hs
      · cases hs'
        exact hword
    rw [Piece.shown, h]
    simp only [write_of_base hbase, hword]
    rfl

theorem shows_or_offends (values : List Value) (p : Piece) :
    (∃ text, Shows values p text) ∨ ∃ e, Offends values p e := by
  cases p with
  | literal text => exact .inl ⟨_, .literal text⟩
  | placeholder radix digits =>
    cases hvalue : values[indexOf digits]? with
    | none => exact .inr ⟨_, .missing hvalue⟩
    | some v =>
      cases hbase : radix.base? with
      | none =>
        cases radix with
        | plain => exact .inl ⟨_, .plain hvalue⟩
        | hexadecimal | binary => cases hbase
      | some base =>
        rcases counts_or_text v with ⟨w, hw⟩ | ⟨s, rfl, hs, -⟩
        · exact .inl ⟨_, .digits hbase hvalue hw⟩
        · exact .inr ⟨_, .text hbase hvalue hs⟩

/-! ## Scanning -/

theorem cutAt_of_not_mem (h : c ∉ cs) : cutAt? c cs = none := by
  induction cs with
  | nil => rfl
  | cons d cs ih =>
    obtain ⟨hne, hrest⟩ := not_or.mp (mt List.mem_cons.mpr h)
    rw [cutAt?, if_neg (Ne.symm hne), ih hrest]
    rfl

theorem cutAt_append (h : c ∉ before) (after : List Char) :
    cutAt? c (before ++ c :: after) = some (before, after) := by
  induction before with
  | nil => exact if_pos rfl
  | cons d before ih =>
    obtain ⟨hne, hrest⟩ := not_or.mp (mt List.mem_cons.mpr h)
    rw [List.cons_append, cutAt?, if_neg (Ne.symm hne), ih hrest]
    rfl

theorem IsLiteral.append {text' : List Char} (h : IsLiteral text) (h' : IsLiteral text') :
    IsLiteral (text ++ text') := by
  have hlast : (text ++ text').getLast? = text'.getLast? ∨ (text ++ text').getLast? = text.getLast? := by
    cases text' with
    | nil => exact .inr (congrArg _ (List.append_nil _))
    | cons c cs => exact .inl (List.getLast?_append_of_ne_nil _ nofun)
  refine ⟨fun hmem => ?_, ?_, ?_⟩
  · exact (List.mem_append.mp hmem).elim h.bracket h'.bracket
  · rcases hlast with heq | heq <;> rw [heq]
    · exact h'.hexadecimal
    · exact h.hexadecimal
  · rcases hlast with heq | heq <;> rw [heq]
    · exact h'.binary
    · exact h.binary

theorem IsLiteral.nil : IsLiteral [] := ⟨nofun, nofun, nofun⟩

/-- The sign in front of a placeholder does not belong to the text before it. -/
theorem radixBefore_sign (h : IsLiteral text) (radix : Radix) : radixBefore (text ++ radix.sign) = (text, radix) := by
  unfold radixBefore
  cases radix with
  | plain =>
    rw [Radix.sign, List.append_nil]
    split
    · exact absurd ‹_› h.hexadecimal
    · exact absurd ‹_› h.binary
    · rfl
  | hexadecimal => simp [Radix.sign]
  | binary => simp [Radix.sign]

theorem digitChar_ne {d : Nat} (hd : d < 10) :
    d.digitChar ≠ '+' ∧ d.digitChar ≠ '\x7d' ∧ Text.isBlank d.digitChar = false := by
  interval_cases d <;> decide

theorem readNat_of_ne {limit n : Nat} (hc : c ≠ '+')
    (h : Word.readDigits? 10 (c :: cs) = some n) (hlt : n < limit) : Word.readNat? limit (c :: cs) = some n := by
  rw [Word.readNat?, h]
  · simp [hlt]
  · intro rest heq
    exact hc (List.cons.inj heq).1

theorem trim_of_no_blank (h : ∀ c ∈ cs, Text.isBlank c = false) : Text.trim cs = cs := by
  have hdrop : ∀ {cs : List Char}, (∀ c ∈ cs, Text.isBlank c = false) → cs.dropWhile Text.isBlank = cs := by
    intro cs h
    cases cs with
    | nil => rfl
    | cons c cs => rw [List.dropWhile_cons_of_neg (by simp [h c List.mem_cons_self])]
  rw [Text.trim, Text.trimStart, hdrop h, Text.trimEnd, hdrop fun c hc => h c (List.mem_reverse.mp hc),
    List.reverse_reverse]

theorem readNat_digits {digits : List Nat} (hne : digits ≠ []) (hdigits : ∀ d ∈ digits, d < 10)
    (hlt : indexOf digits < 2 ^ 64) :
    Word.readNat? Word.count (Text.trim (digits.map Nat.digitChar)) = some (indexOf digits) := by
  have hread := Expression.readDigits_of_spelled (by decide) (Expression.spelled_digitChar hdigits)
  rw [trim_of_no_blank fun c hc => ?_]
  · obtain ⟨d, rest, rfl⟩ := List.exists_cons_of_ne_nil hne
    exact readNat_of_ne (digitChar_ne (hdigits d List.mem_cons_self)).1 hread hlt
  · obtain ⟨d, hd, rfl⟩ := List.mem_map.mp hc
    exact (digitChar_ne (hdigits d hd)).2.2

/-! ## Rendering -/

/-- What stands for pieces, one after another. -/
def fill (values : List Value) : List Piece → Except Error (List Char)
  | [] => .ok []
  | p :: pieces =>
    match p.shown values with
    | .error e => .error e
    | .ok text => (fill values pieces).map (text ++ ·)

theorem renderWithin_placeholder (hbefore : IsLiteral before) {radix : Radix}
    {digits : List Nat} (h : (Piece.placeholder radix digits).IsValid) (bound : Nat) (after : List Char) :
    renderWithin values (bound + 1) (before ++ (Piece.placeholder radix digits).written ++ after) =
      match (Piece.placeholder radix digits).shown values with
      | .error e => .error e
      | .ok text => (renderWithin values bound after).map fun rest => before ++ text ++ rest := by
  obtain ⟨hne, hdigits, hlt⟩ := h
  have hopen : '\x7b' ∉ before ++ radix.sign := by
    intro hmem
    refine (List.mem_append.mp hmem).elim hbefore.bracket fun hsign => ?_
    cases radix <;> revert hsign <;> decide
  have hclose : '\x7d' ∉ digits.map Nat.digitChar := by
    intro hmem
    obtain ⟨d, hd, heq⟩ := List.mem_map.mp hmem
    exact (digitChar_ne (hdigits d hd)).2.1 heq
  have hwritten : before ++ (Piece.placeholder radix digits).written ++ after =
      (before ++ radix.sign) ++ '\x7b' :: (digits.map Nat.digitChar ++ '\x7d' :: after) := by
    simp [Piece.written]
  rw [hwritten, renderWithin, cutAt_append hopen]
  simp only [cutAt_append hclose, readNat_digits hne hdigits hlt, radixBefore_sign hbefore, Piece.shown]
  generalize values[indexOf digits]? = found
  cases found with
  | none => rfl
  | some v =>
    simp only
    cases write v radix <;> rfl

theorem renderWithin_pieces {pieces : List Piece} (hvalid : ∀ p ∈ pieces, p.IsValid) {bound : Nat}
    (hbound : (pieces.flatMap Piece.written).length ≤ bound) (hbefore : IsLiteral before) :
    renderWithin values bound (before ++ pieces.flatMap Piece.written) = (fill values pieces).map (before ++ ·) := by
  induction pieces generalizing bound before with
  | nil =>
    have hcut : cutAt? '\x7b' (before ++ []) = none := cutAt_of_not_mem ((List.append_nil before).symm ▸ hbefore.bracket)
    cases bound with
    | zero => rfl
    | succ bound =>
      rw [List.flatMap_nil, renderWithin, hcut]
      rfl
  | cons p pieces ih =>
    obtain ⟨hp, hrest⟩ := List.forall_mem_cons.mp hvalid
    rw [List.flatMap_cons, List.length_append] at hbound
    rw [List.flatMap_cons, ← List.append_assoc]
    cases p with
    | literal text =>
      -- literal text joins what stands before it
      rw [Piece.written, ih hrest (by omega) (hbefore.append hp), fill, Piece.shown]
      cases fill values pieces with
      | error e => rfl
      | ok rest => exact congrArg Except.ok (List.append_assoc ..)
    | placeholder radix digits =>
      have hlength : 0 < (Piece.placeholder radix digits).written.length := by
        simp [Piece.written]
      obtain ⟨left, rfl⟩ : ∃ left, bound = left + 1 := Nat.exists_eq_succ_of_ne_zero (by omega)
      have hlater := ih hrest (show _ ≤ left by omega) IsLiteral.nil
      rw [List.nil_append] at hlater
      rw [renderWithin_placeholder hbefore hp, fill, hlater]
      cases (Piece.placeholder radix digits).shown values with
      | error e => rfl
      | ok text =>
        cases fill values pieces with
        | error e => rfl
        | ok rest => exact congrArg Except.ok (List.append_assoc ..)

theorem fill_of_shows {pieces : List Piece} {texts : List (List Char)} (h : List.Forall₂ (Shows values) pieces texts) :
    fill values pieces = .ok texts.flatten := by
  induction h with
  | nil => rfl
  | cons hp _ ih =>
    rw [fill, hp.shown, ih]
    rfl

theorem fill_of_offends {before after : List Piece} {texts : List (List Char)} {e : Error}
    (h : List.Forall₂ (Shows values) before texts) (hp : Offends values p e) :
    fill values (before ++ p :: after) = .error e := by
  induction h with
  | nil => rw [List.nil_append, fill, hp.shown]
  | cons hq _ ih =>
    rw [List.cons_append, fill, hq.shown, ih]
    rfl

/-- All pieces have texts, or there is a first one that has none. -/
theorem all_show_or_first_offends (values : List Value) (pieces : List Piece) :
    (∃ texts, List.Forall₂ (Shows values) pieces texts) ∨
      ∃ before p after texts e, pieces = before ++ p :: after ∧ List.Forall₂ (Shows values) before texts ∧
        Offends values p e := by
  induction pieces with
  | nil => exact .inl ⟨[], .nil⟩
  | cons p pieces ih =>
    rcases shows_or_offends values p with ⟨text, hp⟩ | ⟨e, hp⟩
    · rcases ih with ⟨texts, hall⟩ | ⟨before, q, after, texts, e, rfl, hbefore, hq⟩
      · exact .inl ⟨text :: texts, .cons hp hall⟩
      · exact .inr ⟨p :: before, q, after, text :: texts, e, rfl, .cons hp hbefore, hq⟩
    · exact .inr ⟨[], p, pieces, [], e, rfl, .nil, hp⟩

/-- **Messages are rendered piece by piece.** A format of literal pieces and placeholders is rendered as the texts
that stand for its pieces, if there is one for each, and otherwise gives the error of the first placeholder that
has none. One of the two is always the case. -/
theorem render_pieces {pieces : List Piece} (hvalid : ∀ p ∈ pieces, p.IsValid) (values : List Value) :
    (∀ texts, List.Forall₂ (Shows values) pieces texts →
      render (String.ofList (pieces.flatMap Piece.written)) values = .ok (String.ofList texts.flatten)) ∧
    (∀ before p after texts e, pieces = before ++ p :: after → List.Forall₂ (Shows values) before texts →
      Offends values p e → render (String.ofList (pieces.flatMap Piece.written)) values = .error e) ∧
    ((∃ texts, List.Forall₂ (Shows values) pieces texts) ∨
      ∃ before p after texts e, pieces = before ++ p :: after ∧ List.Forall₂ (Shows values) before texts ∧
        Offends values p e) := by
  have hrender : render (String.ofList (pieces.flatMap Piece.written)) values =
      (fill values pieces).map String.ofList := by
    have hpieces : renderWithin values _ ([] ++ pieces.flatMap Piece.written) = _ :=
      renderWithin_pieces hvalid (Nat.le_refl _) IsLiteral.nil
    rw [List.nil_append] at hpieces
    rw [render, String.toList_ofList, String.length_ofList, hpieces]
    cases fill values pieces <;> rfl
  refine ⟨fun texts h => ?_, fun before p after texts e heq h hp => ?_, all_show_or_first_offends values pieces⟩
  · rw [hrender, fill_of_shows h]
    rfl
  · rw [hrender, heq, fill_of_offends h hp]
    rfl

/-- A bracket that closes in a literal piece, and placeholders without anything between them. -/
def mixedPieces : List Piece :=
  [.literal ['a', '\x7d'], .placeholder .plain [0], .placeholder .hexadecimal [0, 1], .placeholder .binary [2]]

/-- A number, a number below zero and a character. -/
def mixedValues : List Value := [.ofWord 10, .ofWord (-1), .string "A"]

theorem render_pieces_mixed : (∀ p ∈ mixedPieces, p.IsValid) ∧
      String.ofList (mixedPieces.flatMap Piece.written) = "a\x7d\x7b0\x7d$\x7b01\x7d@\x7b2\x7d" ∧
      render (String.ofList (mixedPieces.flatMap Piece.written)) mixedValues =
        .ok (String.ofList ["a\x7d".toList, (Value.ofWord 10).text.toList, twosComplement 16 (-1),
          twosComplement 2 65].flatten) := by
  have hvalid : ∀ p ∈ mixedPieces, p.IsValid := by
    have hliteral : IsLiteral ['a', '\x7d'] := ⟨by decide, by decide, by decide⟩
    simp [mixedPieces, Piece.IsValid, indexOf, Nat.ofDigits, hliteral]
  have hshows : List.Forall₂ (Shows mixedValues) mixedPieces
      ["a\x7d".toList, (Value.ofWord 10).text.toList, twosComplement 16 (-1), twosComplement 2 65] :=
    .cons (.literal _) (.cons (.plain rfl) (.cons (.digits rfl rfl (.number (.int (-1))))
      (.cons (.digits rfl rfl (.character 'A')) .nil)))
  exact ⟨hvalid, by decide, (render_pieces hvalid mixedValues).1 _ hshows⟩

end CrossAssembler.Message
