import CrossAssembler.Proofs.Source.Positions

/-!
# Comments and code

Comments are attached to lines and to nothing else. A text without its comments is classified into the same lines,
which differ only in their comments and in where they stand in the text.

Principal results: `classifyContent_moved` — what a line is does not depend on its place in the text;
`code_withoutComments` — nor does it depend on comments.
-/

namespace CrossAssembler

open Text

/-- A row of a text without its comment. The end of the line stays. -/
def withoutComment (row : List Char) : List Char :=
  (splitComment .outside (withoutReturn row)).1 ++ row.drop (withoutReturn row).length

/-- A source without the comments in it. -/
def SourceFile.withoutComments (file : SourceFile) : SourceFile :=
  { file with text := String.ofList (['\n'].intercalate ((file.text.toList.splitOn '\n').map withoutComment)) }

/-- A token that stands some bytes further down in its source. -/
def Token.moved (distance : Nat) (t : Token) : Token := { t with offset := t.offset + distance }

/-- A token wherever it stands in its source. -/
def Token.unplaced (t : Token) : Token := { t with offset := 0 }

/-- What a line is, with its tokens changed. -/
def Line.Kind.mapTokens (f : Token → Token) : Line.Kind → Line.Kind
  | .instruction part => .instruction { part with mnemonic := f part.mnemonic, operand := f part.operand }
  | .command part => .command { part with keyword := f part.keyword, arguments := part.arguments.map f }
  | .variable part => .variable { part with name := f part.name, expression := f part.expression }
  | .call part => .call { part with name := f part.name, arguments := part.arguments.map f }
  | .label => .label
  | .unknown => .unknown

/-- What a line says, without its comment and without the offsets of its tokens. -/
def ClassifiedLine.code (l : ClassifiedLine) : ClassifiedLine :=
  ⟨l.origin.unplaced, l.label.map .unplaced, l.kind.mapTokens .unplaced, none⟩

/-! ## Moving along a text -/

section Moving

variable (t : Token) (d : Nat)

theorem text_moved : (t.moved d).text = t.text := rfl

theorem isEmpty_moved : (t.moved d).isEmpty = t.isEmpty := rfl

theorem place_moved (skipped : Nat) (cs : List Char) :
    (t.moved d).place skipped cs = (t.place skipped cs).moved d := by
  simp only [Token.place, Token.moved, Nat.add_right_comm]

theorem slice_moved (start stop : Nat) : (t.moved d).slice start stop = (t.slice start stop).moved d :=
  place_moved t d ..

theorem sliceFrom_moved (start : Nat) : (t.moved d).sliceFrom start = (t.sliceFrom start).moved d :=
  slice_moved t d ..

theorem trimmed_moved : (t.moved d).trimmed = t.trimmed.moved d := place_moved t d ..

theorem placeAll_moved (gap : Nat) (pieces : List (List Char)) (skipped : Nat) :
    (t.moved d).placeAll gap skipped pieces = (t.placeAll gap skipped pieces).map (Token.moved d) := by
  induction pieces generalizing skipped with
  | nil => rfl
  | cons piece pieces ih =>
    rw [Token.placeAll, ih, place_moved, trimmed_moved]
    rfl

theorem splitTopLevel_moved (separator : Char) :
    (t.moved d).splitTopLevel separator = (t.splitTopLevel separator).map (Token.moved d) := by
  unfold Token.splitTopLevel
  simp only [placeAll_moved, text_moved]
  split
  · rfl
  · rfl

theorem splitFirstWord_moved : (t.moved d).splitFirstWord =
    (t.splitFirstWord.1.moved d, t.splitFirstWord.2.moved d) := by
  unfold Token.splitFirstWord
  simp only [trimmed_moved, sliceFrom_moved, place_moved, text_moved]
  split
  · rfl
  · rfl

theorem withoutColon_moved : (t.moved d).withoutColon = t.withoutColon.moved d := by
  unfold Token.withoutColon
  simp only [place_moved, trimmed_moved, text_moved]
  split
  · rfl
  · rfl

theorem labelBefore_moved (stop : Nat) : labelBefore (t.moved d) stop = (labelBefore t stop).map (Token.moved d) := by
  unfold labelBefore
  simp only [slice_moved, trimmed_moved, withoutColon_moved, isEmpty_moved]
  split
  · rfl
  · rfl

theorem splitArguments_moved (directive : Directive) :
    directive.splitArguments (t.moved d) = (directive.splitArguments t).map (Token.moved d) := by
  unfold Directive.splitArguments
  simp only [trimmed_moved, splitFirstWord_moved, splitTopLevel_moved, isEmpty_moved]
  cases directive.spec.style with
  | list => rfl
  | raw =>
    simp only
    split <;> rfl
  | nameValue =>
    simp only
    split
    · rfl
    · split <;> rfl
  | nameList =>
    simp only
    split <;> rfl

theorem keywordLine_moved (set : InstructionSet) (p : Piece) :
    keywordLine? set (t.moved d) p = (keywordLine? set t p).map (Line.Kind.mapTokens (Token.moved d)) := by
  unfold keywordLine?
  simp only [slice_moved, sliceFrom_moved, trimmed_moved, text_moved, splitArguments_moved]
  cases Directive.ofKeyword? (t.slice p.start p.stop).text with
  | some directive => simp only [Option.map_some, Line.Kind.mapTokens]
  | none =>
    simp only
    split
    · simp only [Option.map_some, Line.Kind.mapTokens]
    · rfl

theorem classifyPieces_moved (set : InstructionSet) (pieces : List Piece) :
    classifyPieces set (t.moved d) pieces = ((classifyPieces set t pieces).1.map (Token.moved d),
      (classifyPieces set t pieces).2.mapTokens (Token.moved d)) := by
  induction pieces with
  | nil => rfl
  | cons p pieces ih =>
    unfold classifyPieces
    simp only [labelBefore_moved, keywordLine_moved, sliceFrom_moved, trimmed_moved]
    cases p.kind with
    | word =>
      simp only
      generalize keywordLine? set t p = found
      cases found with
      | none => exact ih
      | some kind => simp only [Option.map_some]
    | equal =>
      simp only
      generalize labelBefore t p.start = found
      cases found with
      | none => rfl
      | some name => rfl
    | _ => exact ih

theorem classifyContent_moved (set : InstructionSet) :
    classifyContent set (t.moved d) = ((classifyContent set t).1.map (Token.moved d),
      (classifyContent set t).2.mapTokens (Token.moved d)) :=
  classifyPieces_moved t d set _

end Moving

/-! ## Lines without their places -/

theorem mapTokens_mapTokens (f g : Token → Token) (kind : Line.Kind) :
    (kind.mapTokens f).mapTokens g = kind.mapTokens (g ∘ f) := by
  cases kind <;> simp only [Line.Kind.mapTokens, List.map_map, Function.comp]

theorem unplaced_moved (t : Token) : t.unplaced.moved t.offset = t := by
  rw [Token.moved, Token.unplaced, Nat.zero_add]

/-- What a line with some content says. -/
def codeOf (set : InstructionSet) (content : Token) : ClassifiedLine :=
  ClassifiedLine.code ⟨content, (classifyContent set content).1, (classifyContent set content).2, none⟩

theorem codeOf_unplaced (set : InstructionSet) (content : Token) :
    codeOf set content.unplaced = codeOf set content := by
  have hmoved := classifyContent_moved content.unplaced content.offset set
  rw [unplaced_moved] at hmoved
  unfold codeOf
  rw [hmoved]
  simp only [ClassifiedLine.code, Option.map_map, mapTokens_mapTokens]
  rfl

/-- The content of a line of a source. -/
def SourceLine.content (source : SourceId) (l : SourceLine) : Token :=
  (Token.mk source l.number 0 l.offset (String.ofList (splitComment .outside l.text).1)).trimmed

/-- What the lines of a source say is told by their contents, whatever comments are waiting. -/
theorem code_classifyLines (set : InstructionSet) (source : SourceId) (pending : PendingComment)
    (ls : List SourceLine) :
    (classifyLines set source pending ls).map ClassifiedLine.code =
      ((ls.map (SourceLine.content source)).filter fun t => !t.isEmpty).map (codeOf set) := by
  induction ls generalizing pending with
  | nil => rfl
  | cons l ls ih =>
    unfold classifyLines
    simp only
    rw [List.map_cons, List.filter_cons, SourceLine.content]
    split
    · rename_i hempty
      rw [ih, hempty]
      rfl
    · rename_i hcontent
      rw [Bool.not_eq_true] at hcontent
      rw [List.map_cons, ih, hcontent]
      rfl

/-! ## Lines without comments -/

theorem splitComment_content (q : Quoting) (cs : List Char) :
    splitComment q (splitComment q cs).1 = ((splitComment q cs).1, none) := by
  induction cs generalizing q with
  | nil => rfl
  | cons c cs ih =>
    by_cases hstart : (q == .outside && c == ';') = true
    · rw [splitComment, if_pos hstart]
      rfl
    · have hcons : (splitComment q (c :: cs)).1 = c :: (splitComment (q.step c) cs).1 := by
        rw [splitComment, if_neg hstart]
      rw [hcons, splitComment, if_neg hstart, ih]

theorem splitComment_of_append {q : Quoting} {xs ys : List Char} (h : splitComment q (xs ++ ys) = (xs ++ ys, none)) :
    splitComment q xs = (xs, none) := by
  induction xs generalizing q with
  | nil => rfl
  | cons c xs ih =>
    rw [List.cons_append, splitComment] at h
    rw [splitComment]
    split at h
    · cases h
    · rename_i hstart
      obtain ⟨hcontent, hcomment⟩ := Prod.mk.inj h
      have hrest := ih (Prod.ext (List.cons.inj hcontent).2 hcomment)
      rw [if_neg hstart, hrest]

/-- A blank at the end of a text that is not blank changes nothing about it without the blanks around it. -/
theorem trim_concat {b : Char} (hb : isBlank b = true) (cs : List Char) : trim (cs ++ [b]) = [] ∧ trim cs = [] ∨
      trim (cs ++ [b]) = trim cs ∧ (cs ++ [b]).takeWhile isBlank = cs.takeWhile isBlank := by
  by_cases hall : ∀ c ∈ cs, isBlank c = true
  · left
    have hboth : ∀ c ∈ cs ++ [b], isBlank c = true := by simpa [or_imp, forall_and, hb] using hall
    rw [trim, trimStart, List.dropWhile_eq_nil_iff.mpr hboth, trim, trimStart, List.dropWhile_eq_nil_iff.mpr hall]
    exact ⟨rfl, rfl⟩
  right
  have hne : cs.dropWhile isBlank ≠ [] := fun h => hall (List.dropWhile_eq_nil_iff.mp h)
  have hdrop : (cs ++ [b]).dropWhile isBlank = cs.dropWhile isBlank ++ [b] := by
    rw [List.dropWhile_append, if_neg (by simpa using hne)]
  constructor
  · rw [trim, trimStart, hdrop, trimEnd, List.reverse_append, List.reverse_singleton, List.singleton_append,
      List.dropWhile_cons, if_pos hb]
    rfl
  · rw [List.takeWhile_append, if_neg]
    intro hlength
    exact hall (List.takeWhile_eq_self_iff.mp ((List.takeWhile_prefix isBlank).eq_of_length hlength))

/-- Whether two lines have the same content but for its place, or none. -/
def SameContent (source : SourceId) (l l' : SourceLine) : Prop :=
  (l.content source).isEmpty = true ∧ (l'.content source).isEmpty = true ∨
    (l'.content source).unplaced = (l.content source).unplaced

theorem unplaced_trimmed (source : SourceId) (number start : Nat) (cs : List Char) :
    (Token.mk source number 0 start (String.ofList cs)).trimmed.unplaced =
      ⟨source, number, byteLength (cs.takeWhile isBlank), 0, String.ofList (trim cs)⟩ := by
  simp only [Token.trimmed, Token.place, Token.unplaced, String.toList_ofList, Nat.zero_add]

/-- A line without its comment is the content of the line. A carriage return before the comment counts as the end
of the line now. -/
theorem content_eq_withoutComment (row : List Char) :
    (splitComment .outside (withoutReturn row)).1 = withoutReturn (withoutComment row) ∨
      (splitComment .outside (withoutReturn row)).1 = withoutReturn (withoutComment row) ++ ['\r'] := by
  have hends := endsLine_withoutReturn row
  unfold withoutComment
  generalize withoutReturn row = line at hends
  rcases hends with rfl | ⟨rfl, -⟩
  · left
    rw [List.drop_left, withoutReturn, if_pos (List.getLast?_concat), List.dropLast_concat]
  · rw [List.drop_length, List.append_nil]
    exact (endsLine_withoutReturn _).elim .inr fun h => .inl h.1

theorem splitComment_withoutComment (row : List Char) : splitComment .outside (withoutReturn (withoutComment row)) =
    (withoutReturn (withoutComment row), none) := by
  have hplain := splitComment_content .outside (withoutReturn row)
  rcases content_eq_withoutComment row with h | h
  · rw [h] at hplain
    exact hplain
  · rw [h] at hplain
    exact splitComment_of_append hplain

theorem sameContent_withoutComment (source : SourceId) (number start start' : Nat) (row : List Char) :
    SameContent source ⟨number, start, withoutReturn row⟩ ⟨number, start', withoutReturn (withoutComment row)⟩ := by
  unfold SameContent SourceLine.content
  simp only [splitComment_withoutComment]
  rcases content_eq_withoutComment row with h | h
  · right
    rw [h, unplaced_trimmed, unplaced_trimmed]
  rw [h]
  rcases trim_concat (show isBlank '\r' = true by decide) (withoutReturn (withoutComment row)) with
    ⟨hempty, hempty'⟩ | ⟨htrim, hblanks⟩
  · left
    simp only [Token.trimmed, Token.place, Token.isEmpty, String.toList_ofList, hempty, hempty']
    exact ⟨rfl, rfl⟩
  · right
    rw [unplaced_trimmed, unplaced_trimmed, htrim, hblanks]

theorem codes_of_sameContent (set : InstructionSet) {source : SourceId} {ls ls' : List SourceLine}
    (h : List.Forall₂ (SameContent source) ls ls') :
    ((ls'.map (SourceLine.content source)).filter fun t => !t.isEmpty).map (codeOf set) =
      ((ls.map (SourceLine.content source)).filter fun t => !t.isEmpty).map (codeOf set) := by
  induction h with
  | nil => rfl
  | cons hline _ ih =>
    rename_i l l' _ _ _
    rw [List.map_cons, List.map_cons, List.filter_cons, List.filter_cons]
    rcases hline with ⟨hl, hl'⟩ | hsame
    · rw [hl, hl']
      exact ih
    have hempty : (l'.content source).isEmpty = (l.content source).isEmpty :=
      congrArg (fun t => t.text.isEmpty) hsame
    have hcode := congrArg (codeOf set) hsame
    rw [codeOf_unplaced, codeOf_unplaced] at hcode
    rw [hempty]
    split
    · rw [List.map_cons, List.map_cons, hcode, ih]
    · exact ih

theorem sameContent_placeRows (source : SourceId) (number start start' : Nat) (rows : List (List Char)) :
    List.Forall₂ (SameContent source) (placeRows number start rows)
      (placeRows number start' (rows.map withoutComment)) := by
  induction rows generalizing number start start' with
  | nil => exact .nil
  | cons row rows ih => exact .cons (sameContent_withoutComment source number start start' row) (ih _ _ _)

theorem not_mem_withoutComment {row : List Char} (h : '\n' ∉ row) : '\n' ∉ withoutComment row := by
  intro hmem
  rcases List.mem_append.mp hmem with hmem | hmem
  · have hcontent := splitComment_prefix .outside (withoutReturn row)
    exact h ((endsLine_withoutReturn row).isPrefix.subset (hcontent.subset hmem))
  · exact h (List.mem_of_mem_drop hmem)

theorem splitComment_of_mem_placeRows {number start : Nat} {rows : List (List Char)} {l : SourceLine}
    (h : l ∈ placeRows number start (rows.map withoutComment)) : (splitComment .outside l.text).2 = none := by
  induction rows generalizing number start with
  | nil => cases h
  | cons row rows ih =>
    rcases List.mem_cons.mp h with rfl | h
    · rw [splitComment_withoutComment]
    · exact ih h

theorem comment_classifyLines {set : InstructionSet} {source : SourceId} {ls : List SourceLine}
    (hplain : ∀ l ∈ ls, (splitComment .outside l.text).2 = none) :
    ∀ c ∈ classifyLines set source ⟨none, false⟩ ls, c.comment = none := by
  induction ls with
  | nil => exact fun _ h => absurd h List.not_mem_nil
  | cons l ls ih =>
    obtain ⟨hl, hls⟩ := List.forall_mem_cons.mp hplain
    unfold classifyLines
    simp only [hl, Option.map_none]
    split
    · exact ih hls
    · exact List.forall_mem_cons.mpr ⟨rfl, ih hls⟩

/-- Whatever a source says and whatever the instructions are, without its comments it is classified into the same
lines in the same order, each with the same number, columns, label and kind; only the offsets differ, and there are
no comments any more. -/
theorem code_withoutComments (set : InstructionSet) (source : SourceId) (file : SourceFile) :
    (classifySource set source file.withoutComments).map ClassifiedLine.code =
      (classifySource set source file).map ClassifiedLine.code ∧
    ∀ l ∈ classifySource set source file.withoutComments, l.comment = none := by
  have hrows : file.withoutComments.text.toList.splitOn '\n' =
      (file.text.toList.splitOn '\n').map withoutComment := by
    rw [SourceFile.withoutComments, String.toList_ofList, List.splitOn_intercalate]
    · intro row hrow
      obtain ⟨row, hmem, rfl⟩ := List.mem_map.mp hrow
      exact not_mem_withoutComment (not_mem_of_mem_splitOn row hmem)
    · exact mt List.map_eq_nil_iff.mp (List.splitOn_ne_nil _ _)
  have hlines : file.withoutComments.lines = placeRows 1 0 ((file.text.toList.splitOn '\n').map withoutComment) := by
    rw [SourceFile.lines_eq_placeRows, hrows]
  rw [classifySource, classifySource, hlines]
  refine ⟨?_, comment_classifyLines fun l hl => splitComment_of_mem_placeRows hl⟩
  rw [code_classifyLines, code_classifyLines, file.lines_eq_placeRows]
  exact codes_of_sameContent set (sameContent_placeRows source 1 0 0 _)

end CrossAssembler
