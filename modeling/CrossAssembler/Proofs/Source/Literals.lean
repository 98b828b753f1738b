import CrossAssembler.Expression.Evaluation
import CrossAssembler.Instruction.Catalogue
import CrossAssembler.Proofs.Source.Splitting

/-!
# Strings in data lines

A string written in a data line is met by three readers of quotes, each with rules of its own: the one that
looks for a comment, the one that separates arguments, and the one that reads expressions. They agree on where
it ends, and the last gives back the string.

Principal result: `strings_survive` — the arguments of such a line are the written strings, and their values are
the strings.
-/

namespace CrossAssembler

open Text Expression

variable {c : Char} {t : Token}

/-- The characters of a string between its quotes: a backslash stands before each quote and backslash. -/
def writtenBody (cs : List Char) : List Char :=
  cs.flatMap fun c => if c = '"' ∨ c = '\\' then ['\\', c] else [c]

/-- A string as it is written. -/
def written (s : String) : List Char := '"' :: writtenBody s.toList ++ ['"']

theorem writtenBody_cons (c : Char) (cs : List Char) :
    writtenBody (c :: cs) = (if c = '"' ∨ c = '\\' then ['\\', c] else [c]) ++ writtenBody cs := List.flatMap_cons

theorem quotedBody_writtenBody (cs : List Char) : QuotedBody '"' (writtenBody cs) := by
  induction cs with
  | nil => exact .done
  | cons c cs ih =>
    rw [writtenBody_cons]
    split
    · exact .escape c ih
    · rename_i h
      exact .plain (fun hc => h (.inr hc)) (fun hc => h (.inl hc)) ih

/-! ## The value of a written string -/

theorem unescape_mark (h : c = '"' ∨ c = '\\') : unescape c = c := by
  rcases h with rfl | rfl <;> rfl

theorem stringBody_plain (h : ¬ (c = '"' ∨ c = '\\')) (rest : List Char) :
    stringBody (c :: rest) = (stringBody rest).map fun r => (c :: r.1, r.2) := by
  rw [stringBody]
  · exact fun hc => h (.inl hc)
  · exact fun hc => absurd (.inr hc) h
  · exact fun _ _ hc => absurd (.inr hc) h

theorem stringBody_writtenBody (cs rest : List Char) :
    stringBody (writtenBody cs ++ '"' :: rest) = some (cs, rest) := by
  induction cs with
  | nil => rfl
  | cons c cs ih =>
    rw [writtenBody_cons]
    split
    · rename_i h
      rw [List.append_assoc]
      change (stringBody (writtenBody cs ++ '"' :: rest)).map _ = _
      rw [ih, Option.map_some, unescape_mark h]
    · rename_i h
      rw [List.append_assoc, List.singleton_append, stringBody_plain h, ih, Option.map_some]

theorem operand_written (s : String) (offset : Nat) : operand offset '"' (writtenBody s.toList ++ ['"']) =
      .ok ⟨.string s, byteLength (written s), [], .operator⟩ := by
  have hbody := stringBody_writtenBody s.toList []
  simp only [operand, hbody, Char.reduceEq, if_false, if_true, String.ofList_toList]
  rfl

theorem parse_written (s : String) : parse (String.ofList (written s)) =
      .ok ⟨String.ofList (written s), [⟨.string s, 0, byteLength (written s)⟩]⟩ := by
  have hsplit : split (written s) = .ok [⟨.string s, 0, byteLength (written s)⟩] := by
    have hall : (written s).all isAsciiBlank = false := rfl
    have hread := operand_written s 0
    rw [split, hall, if_neg Bool.false_ne_true]
    change (operand 0 '"' (writtenBody s.toList ++ ['"'])).bind _ = _
    rw [hread]
    change Except.ok _ = _
    have hblanks : (written s).takeWhile isAsciiBlank = [] := rfl
    simp only [hblanks, List.length_nil, Nat.zero_add]
  rw [parse, String.toList_ofList, hsplit]
  rfl

/-! ## Lines of written strings -/

/-- A string with the blanks that stand around it when it is written. -/
structure Literal where
  before : List Char
  content : String
  after : List Char
  all_before : before.all isBlank = true
  all_after : after.all isBlank = true

/-- A written string among arguments. -/
def Literal.slot (l : Literal) : Slot ',' where
  before := l.before
  piece := written l.content
  after := l.after
  all_before := l.all_before
  all_after := l.all_after
  balanced := .quoted rfl (quotedBody_writtenBody _) .done
  none_first := rfl
  none_last := by
    rw [written, List.getLast?_append]
    rfl

/-- A line that writes strings as data, with a comment after them. -/
def dataLine (literals : List Literal) (comment : List Char) : List Char :=
  ['.', 'D', 'B'] ++ joined ',' (literals.map Literal.slot) ++ ';' :: comment

/-! ### The comment -/

/-- Whether a character starts a comment. -/
def startsComment (n : Nesting) (c : Char) : Bool := n.quoting == .outside && c == ';'

theorem quoting_step (n : Nesting) (c : Char) : (n.step c).quoting = n.quoting.step c := by
  unfold Nesting.step
  simp only
  split
  · rfl
  · split
    · rfl
    · split <;> rfl

theorem Passes.splitComment {n m : Nesting} {cs : List Char} (h : Passes startsComment n cs m)
    (rest : List Char) : splitComment n.quoting (cs ++ rest) =
      (cs ++ (splitComment m.quoting rest).1, (splitComment m.quoting rest).2) := by
  induction h with
  | done n => rfl
  | @more n m c cs hstops _ ih =>
    unfold startsComment at hstops
    rw [List.cons_append, CrossAssembler.splitComment, hstops, if_neg Bool.false_ne_true, ← quoting_step, ih]
    rfl

theorem passes_plain (h : IsSeparator c) (hne : c ≠ ';') : Passes startsComment .start [c] .start := by
  refine .more ?_ ?_
  · rw [startsComment, beq_false_of_ne hne, Bool.and_false]
  · rw [step_start h.not_quote h.not_opens h.not_closes]
    exact .done _

theorem startsComment_blank (h : isBlank c = true) : startsComment .start c = false := by
  have hne : c ≠ ';' := by
    rintro rfl
    cases h
  rw [startsComment, beq_false_of_ne hne, Bool.and_false]

theorem Literal.passes (l : Literal) : Passes startsComment .start l.slot.text .start :=
  have hblank := fun c => startsComment_blank (c := c)
  have hquoted : Passes startsComment .start (written l.content) .start :=
    (quotedBody_writtenBody l.content.toList).passes_quoted rfl rfl fun _ _ => rfl
  ((passes_blanks hblank l.slot.blank_before).trans hquoted).trans (passes_blanks hblank l.slot.blank_after)

theorem passes_joined (literals : List Literal) :
    Passes startsComment .start (joined ',' (literals.map Literal.slot)) .start := by
  induction literals with
  | nil => exact .done _
  | cons l literals ih =>
    cases literals with
    | nil =>
      rw [List.map_singleton, joined, List.map_singleton, List.intercalate_singleton]
      exact l.passes
    | cons next literals =>
      rw [joined, List.map_cons, List.map_cons, List.map_cons, List.map_cons, List.intercalate_cons_cons,
        List.append_assoc]
      exact l.passes.trans ((passes_plain (by decide) (by decide)).trans ih)

theorem splitComment_dataLine (literals : List Literal) (comment : List Char) :
    splitComment .outside (dataLine literals comment) =
      (['.', 'D', 'B'] ++ joined ',' (literals.map Literal.slot), some comment) := by
  have hkeyword : Passes startsComment .start ['.', 'D', 'B'] .start :=
    ((passes_plain (c := '.') (by decide) (by decide)).trans (passes_plain (c := 'D') (by decide) (by decide))).trans
      (passes_plain (by decide) (by decide))
  refine ((hkeyword.trans (passes_joined literals)).splitComment (';' :: comment)).trans ?_
  exact congrArg (·, some comment) (List.append_nil _)

/-! ### The keyword and its arguments -/

/-- Between the space and the first blank beyond it, which takes two bytes, there is none. -/
theorem toNat_of_isBlank (h : isBlank c = true) : c.toNat ≤ 32 ∨ 133 ≤ c.toNat := by
  simp only [isBlank, blankRanges, List.any_cons, List.any_nil, Bool.or_eq_true, Bool.and_eq_true,
    decide_eq_true_eq, Bool.or_false] at h
  omega

theorem continuesWord_of_isBlank (h : isBlank c = true) : Piece.continuesWord c = false := by
  have hrange : c.val.toNat ≤ 32 ∨ 133 ≤ c.val.toNat := toNat_of_isBlank h
  refine Bool.eq_false_iff.mpr fun hword => ?_
  simp only [Piece.continuesWord, Char.isAlphanum, Char.isAlpha, Char.isUpper, Char.isLower, Char.isDigit,
    Bool.or_eq_true, Bool.and_eq_true, decide_eq_true_eq, beq_iff_eq, ge_iff_le, UInt32.le_iff_toNat_le,
    Char.reduceVal, UInt32.reduceToNat] at hword
  rcases hword with (((hword | hword) | hword) | rfl) | rfl
  · omega
  · omega
  · omega
  · cases h
  · cases h

theorem toList_text_trimmed (t : Token) : t.trimmed.text.toList = trim t.text.toList := String.toList_ofList

theorem toList_text_sliceFrom {before after : List Char} (h : t.text.toList = before ++ after) :
    (t.sliceFrom (byteLength before)).text.toList = after := by
  have hsize : t.text.utf8ByteSize = byteLength before + byteLength after := by
    rw [← byteLength_toList, h, byteLength_append]
  have hslice := sliceBytes_append before after []
  rw [List.append_nil] at hslice
  rw [Token.sliceFrom, Token.slice, Token.place, String.toList_ofList, h, hsize, hslice]

theorem scan_keyword {tail : List Char} (h : ∀ c ∈ tail.head?, Piece.continuesWord c = false) :
    ∃ pieces, Piece.scan (['.', 'D', 'B'] ++ tail) = ⟨.word, 0, 3⟩ :: pieces := by
  have htail : tail.takeWhile Piece.continuesWord = [] := by
    cases tail with
    | nil => rfl
    | cons c tail => exact List.takeWhile_cons_of_neg (by rw [h c rfl]; exact Bool.false_ne_true)
  have hleading : Piece.leading '.' ('D' :: 'B' :: tail) = (.word, 3) := by
    change (Piece.Kind.word, (('D' :: 'B' :: tail).takeWhile Piece.continuesWord).length + 1) = _
    rw [List.takeWhile_cons_of_pos rfl, List.takeWhile_cons_of_pos rfl, htail]
    rfl
  have hnoGap : ('.' :: 'D' :: 'B' :: tail).takeWhile Piece.isGap = [] := rfl
  have hrest : ('.' :: 'D' :: 'B' :: tail).dropWhile Piece.isGap = '.' :: 'D' :: 'B' :: tail := rfl
  refine ⟨Piece.scanFrom (tail.length + 2) 3 tail, ?_⟩
  change Piece.scanFrom (tail.length + 2 + 1) 0 ('.' :: 'D' :: 'B' :: tail) = _
  rw [Piece.scanFrom]
  simp only [hnoGap, hrest, hleading]
  rfl

theorem classifyContent_bytes (set : InstructionSet) {content : Token} {tail : List Char}
    (hcontent : content.text.toList = ['.', 'D', 'B'] ++ tail)
    (htail : ∀ c ∈ tail.head?, Piece.continuesWord c = false) :
    ∃ keyword, classifyContent set content = (none, .command
      { directive := .bytes, keyword, arguments := Directive.bytes.splitArguments (content.sliceFrom 3).trimmed }) := by
  obtain ⟨pieces, hscan⟩ := scan_keyword htail
  have hkeyword : (content.slice 0 3).text = ".DB" := by
    have hslice := sliceBytes_append [] ['.', 'D', 'B'] tail
    rw [Token.slice, Token.place, hcontent]
    exact congrArg String.ofList hslice
  have hlabel : labelBefore content 0 = none := by
    have hnone : sliceBytes 0 0 content.text.toList = [] := sliceBytes_append [] [] _
    rw [labelBefore, Token.slice, hnone]
    rfl
  refine ⟨content.slice 0 3, ?_⟩
  rw [classifyContent, hcontent, hscan, classifyPieces]
  simp only [keywordLine?, hkeyword, hlabel]
  rfl

theorem splitArguments_bytes (rest : Token) :
    Directive.bytes.splitArguments rest = rest.trimmed.splitTopLevel ',' := rfl

theorem continuesWord_head_joined {slots : List (Slot ',')} (hquote : ∀ s ∈ slots, s.piece.head? = some '"') :
    ∀ c ∈ (joined ',' slots).head?, Piece.continuesWord c = false := by
  cases slots with
  | nil => exact nofun
  | cons s slots =>
    obtain ⟨piece, hpiece⟩ := List.head?_eq_some_iff.mp (hquote s List.mem_cons_self)
    intro c hc
    rw [joined_cons, Slot.text, hpiece] at hc
    cases hbefore : s.before with
    | nil =>
      rw [hbefore] at hc
      cases hc
      rfl
    | cons b before =>
      rw [hbefore] at hc
      cases hc
      exact continuesWord_of_isBlank (s.blank_before c (by rw [hbefore]; exact List.mem_cons_self))

theorem arguments_joined {slots : List (Slot ',')} (h : Solid (slots.map Slot.piece)) {rest : Token}
    (hrest : rest.text.toList = joined ',' slots) :
    (Directive.bytes.splitArguments rest.trimmed).map (fun t => t.text.toList) = slots.map Slot.piece := by
  obtain ⟨once, honce, hsame⟩ := exists_trim_joined h
  obtain ⟨twice, htwice, hsame'⟩ := exists_trim_joined (hsame ▸ h)
  have hpieces : twice.map Slot.piece = slots.map Slot.piece := hsame'.trans hsame
  have hsolid : Solid (twice.map Slot.piece) := hpieces ▸ h
  have htext : rest.trimmed.trimmed.text.toList = joined ',' twice := by
    rw [toList_text_trimmed, toList_text_trimmed, hrest, honce, htwice]
  have hsingle : twice.map Slot.piece ≠ [[]] := fun heq => hsolid.2 (heq ▸ List.mem_singleton_self _)
  rw [splitArguments_bytes, ← hpieces, splitTopLevel_joined (by decide) (mt List.map_eq_nil_iff.mpr hsolid.1) hsingle htext,
    map_text_placeAll]

theorem exists_content_dataLine {literals : List Literal} (hne : literals ≠ [])
    (ht : t.text.toList = ['.', 'D', 'B'] ++ joined ',' (literals.map Literal.slot)) :
    ∃ slots : List (Slot ','), t.trimmed.text.toList = ['.', 'D', 'B'] ++ joined ',' slots ∧
      slots.map Slot.piece = literals.map (fun s => written s.content) ∧ Solid (slots.map Slot.piece) := by
  have hpieces : (literals.map Literal.slot).map Slot.piece = literals.map fun s => written s.content :=
    List.map_map
  have hsolid : Solid ((literals.map Literal.slot).map Slot.piece) := by
    rw [hpieces]
    refine ⟨mt List.map_eq_nil_iff.mp hne, fun hnil => ?_⟩
    obtain ⟨s, -, hs⟩ := List.mem_map.mp hnil
    cases hs
  obtain ⟨slots, hend, hsame⟩ := exists_trimEnd_joined ['.', 'D', 'B'] hsolid
  refine ⟨slots, ?_, hsame.trans hpieces, hsame ▸ hsolid⟩
  rw [toList_text_trimmed, ht, trim, ← hend]
  rfl

theorem evaluate_written (s : String) (resolve : Resolver) (mode : Mode) :
    (parse (String.ofList (written s)) >>= fun e => e.evaluate resolve mode) = .ok (.resolved (.string s)) := by
  rw [parse_written]
  rfl

/-- A data line is a command whose arguments are the written strings. -/
theorem exists_command_dataLine (set : InstructionSet) {literals : List Literal} (hne : literals ≠ [])
    (ht : t.text.toList = ['.', 'D', 'B'] ++ joined ',' (literals.map Literal.slot)) :
    t.trimmed.isEmpty = false ∧ ∃ command : Line.CommandPart,
      classifyContent set t.trimmed = (none, .command command) ∧ command.directive = .bytes ∧
      command.arguments.map Token.text = literals.map fun s => String.ofList (written s.content) := by
  obtain ⟨slots, hcontent, hpieces, hsolid⟩ := exists_content_dataLine hne ht
  have hquote : ∀ s ∈ slots, s.piece.head? = some '"' := by
    intro s hs
    have hmem : s.piece ∈ literals.map fun s => written s.content := hpieces ▸ List.mem_map_of_mem hs
    obtain ⟨l, -, hl⟩ := List.mem_map.mp hmem
    rw [← hl]
    rfl
  obtain ⟨keyword, hclassify⟩ := classifyContent_bytes set hcontent (continuesWord_head_joined hquote)
  have hrest : (t.trimmed.sliceFrom 3).text.toList = joined ',' slots :=
    @toList_text_sliceFrom _ ['.', 'D', 'B'] _ hcontent
  have harguments := arguments_joined hsolid hrest
  refine ⟨Bool.eq_false_iff.mpr fun hempty => ?_, _, hclassify, rfl, ?_⟩
  · rw [String.isEmpty_iff.mp hempty] at hcontent
    cases hcontent
  · have htexts := congrArg (List.map String.ofList) (harguments.trans hpieces)
    simp only [List.map_map, Function.comp_def, String.ofList_toList] at htexts ⊢
    exact htexts

/-- A line of bytes whose arguments are written strings, with a comment after them, is a command with exactly
those arguments, whatever comes before and after it, and each of them has the string for its value. -/
theorem strings_survive (set : InstructionSet) (source : SourceId) (pending : PendingComment)
    (number offset : Nat) (literals : List Literal) (hne : literals ≠ []) (comment : List Char)
    (rest : List SourceLine) :
    ∃ l command, classifyLines set source pending (⟨number, offset, dataLine literals comment⟩ :: rest) =
        l :: classifyLines set source ⟨none, false⟩ rest ∧
      l.label = none ∧ l.kind = .command command ∧ command.directive = .bytes ∧
      command.arguments.map Token.text = literals.map (fun s => String.ofList (written s.content)) ∧
      ∀ resolve mode, command.arguments.map (fun t => parse t.text >>= fun e => e.evaluate resolve mode) =
        literals.map fun s => .ok (.resolved (.string s.content)) := by
  have hcomment := splitComment_dataLine literals comment
  generalize hwhole : Token.mk source number 0 offset
    (String.ofList (['.', 'D', 'B'] ++ joined ',' (literals.map Literal.slot))) = whole
  obtain ⟨hnonempty, command, hclassify, hdirective, htexts⟩ :=
    exists_command_dataLine set hne (t := whole) (by rw [← hwhole, String.toList_ofList])
  refine ⟨⟨whole.trimmed, none, .command command, pending.attach (some (readComment comment))⟩, command, ?_, rfl,
    rfl, hdirective, htexts, fun resolve mode => ?_⟩
  · rw [classifyLines]
    simp only [hcomment, hwhole, hnonempty, hclassify, Option.map_some, Bool.false_eq_true, if_false]
  · have hvalues := congrArg (List.map fun text => parse text >>= fun e => e.evaluate resolve mode) htexts
    rw [List.map_map, List.map_map] at hvalues
    refine hvalues.trans (List.map_congr_left fun s _ => ?_)
    exact evaluate_written s.content resolve mode

/-- A string with a comma, a bracket, a semicolon, a quote and a backslash, and an empty one. -/
def mixedLiterals : List Literal :=
  [⟨['\t'], ",(;\"\\", [], rfl, List.all_nil⟩, ⟨[], "", ['\t'], List.all_nil, rfl⟩]

theorem strings_survive_mixedLiterals :
    dataLine mixedLiterals " a;b".toList = ".DB\t\",(;\\\"\\\\\",\"\"\t; a;b".toList ∧
    ∃ l command, classifyLines Platform.w65816.instructions 0 ⟨none, false⟩
        [⟨1, 0, dataLine mixedLiterals " a;b".toList⟩] = [l] ∧ l.kind = .command command ∧
      command.arguments.map Token.text = ["\",(;\\\"\\\\\"", "\"\""] := by
  refine ⟨rfl, ?_⟩
  obtain ⟨l, command, hlines, -, hkind, -, htexts, -⟩ := strings_survive Platform.w65816.instructions 0 ⟨none, false⟩ 1 0
    mixedLiterals (List.cons_ne_nil _ _) " a;b".toList []
  exact ⟨l, command, hlines, hkind, htexts⟩

end CrossAssembler
