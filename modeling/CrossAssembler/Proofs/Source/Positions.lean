import CrossAssembler.Instruction.Catalogue
import CrossAssembler.Proofs.Source.Parts

/-!
# Where tokens stand

Every token of a classified line knows its place: it is the text of the file from its offset on, and its
line and column are those of that offset.

Principal results: `standsIn_of_mem_lines` — lines stand where they say; `tokens_standIn` — so does
everything that lines are classified into.
-/

namespace CrossAssembler

open Text

variable {t content : Token} {l : SourceLine} {set : InstructionSet}

/-- The tokens that say what a line is. -/
def Line.Kind.tokens : Line.Kind → List Token
  | .instruction part => [part.mnemonic, part.operand]
  | .command part => part.keyword :: part.arguments
  | .variable part => [part.name, part.expression]
  | .call part => part.name :: part.arguments
  | .label | .unknown => []

/-- All tokens of a classified line. -/
def ClassifiedLine.tokens (l : ClassifiedLine) : List Token := l.origin :: l.label.toList ++ l.kind.tokens

/-- The byte at which the line begins that a text breaks off in. -/
def lineStart (before : List Char) : Nat := byteLength (before.reverse.dropWhile (· != '\n')).reverse

/-- Whether a token has the place in a text that it says it has: its characters stand at its offset, its line
counts the line ends before them, and its column the bytes since the last of these. -/
def Token.StandsIn (t : Token) (text : List Char) : Prop :=
  ∃ before after, text = before ++ t.text.toList ++ after ∧ t.offset = byteLength before ∧
    t.line = 1 + before.count '\n' ∧ t.column = t.offset - lineStart before

/-! ## Places on a line -/

theorem lineStart_le (before : List Char) : lineStart before ≤ byteLength before := by
  have hcut : before = (before.reverse.dropWhile (· != '\n')).reverse ++
      (before.reverse.takeWhile (· != '\n')).reverse := by
    rw [← List.reverse_append, List.takeWhile_append_dropWhile, List.reverse_reverse]
  have hsize := congrArg byteLength hcut
  rw [byteLength_append] at hsize
  exact Nat.le.intro hsize.symm

theorem lineStart_append {before here : List Char} (h : '\n' ∉ here) :
    lineStart (before ++ here) = lineStart before := by
  have hall : ∀ c ∈ here.reverse, (c != '\n') = true := fun c hc =>
    bne_iff_ne.mpr fun heq => h (heq ▸ List.mem_reverse.mp hc)
  rw [lineStart, List.reverse_append, List.dropWhile_append_of_pos hall]
  rfl

theorem lineStart_of_newline (before : List Char) : lineStart (before ++ ['\n']) = byteLength (before ++ ['\n']) := by
  rw [lineStart, List.reverse_append, List.reverse_singleton, List.singleton_append, List.dropWhile_cons]
  simp

/-- A part of a token without line ends stands where it says if the token does. -/
theorem Token.StandsIn.part {u : Token} {text : List Char} (h : t.StandsIn text)
    (hline : '\n' ∉ t.text.toList) (hu : u.PartOf t) : u.StandsIn text := by
  obtain ⟨before, after, htext, hoffset, hnumber, hcolumn⟩ := h
  obtain ⟨before', after', hcut, hcolumn', hoffset'⟩ := hu.cut
  have hbefore : '\n' ∉ before' := fun hmem => hline (by
    rw [hcut]
    exact List.mem_append_left _ (List.mem_append_left _ hmem))
  have hle := lineStart_le before
  refine ⟨before ++ before', after' ++ after, ?_, ?_, ?_, ?_⟩
  · rw [htext, hcut]
    simp only [List.append_assoc]
  · rw [hoffset', hoffset, byteLength_append]
  · rw [hu.line, hnumber, List.count_append, List.count_eq_zero.mpr hbefore, Nat.add_zero]
  · rw [lineStart_append hbefore, hcolumn', hcolumn, hoffset']
    omega

/-! ## Lines -/

/-- The token of a whole line. -/
def SourceLine.token (source : SourceId) (l : SourceLine) : Token :=
  ⟨source, l.number, 0, l.offset, String.ofList l.text⟩

/-- Whether a row is a line, or the line and one carriage return. -/
def EndsLine (line row : List Char) : Prop := row = line ++ ['\r'] ∨ row = line ∧ row.getLast? ≠ some '\r'

theorem endsLine_withoutReturn (row : List Char) : EndsLine (withoutReturn row) row := by
  unfold withoutReturn
  split
  · rename_i hlast
    obtain ⟨line, rfl⟩ := List.getLast?_eq_some_iff.mp hlast
    rw [List.dropLast_concat]
    exact .inl rfl
  · rename_i hlast
    exact .inr ⟨rfl, hlast⟩

theorem EndsLine.isPrefix {line row : List Char} (h : EndsLine line row) : line <+: row := by
  rcases h with rfl | ⟨rfl, -⟩
  · exact List.prefix_append _ _
  · exact List.prefix_refl _

/-- Whether a line with a number begins after some text. -/
structure LineBegins (before : List Char) (number start : Nat) : Prop where
  start : start = byteLength before
  fresh : lineStart before = byteLength before
  number : number = 1 + before.count '\n'

namespace LineBegins

variable {before : List Char} {number start : Nat}

theorem next (h : LineBegins before number start) {line : List Char} (hline : '\n' ∉ line) :
    LineBegins (before ++ line ++ ['\n']) (number + 1) (byteLength (before ++ line) + 1) where
  start := by
    rw [byteLength_append _ ['\n']]
    rfl
  fresh := lineStart_of_newline _
  number := by
    rw [h.number, List.count_append, List.count_append, List.count_eq_zero.mpr hline]
    rfl

theorem standsIn {l : SourceLine} (h : LineBegins before l.number l.offset) {source : SourceId}
    {text row rest : List Char} (htext : text = before ++ row ++ rest) (hrow : '\n' ∉ row) (hline : l.text <+: row) :
    (l.token source).StandsIn text ∧ '\n' ∉ l.text := by
  obtain ⟨after, hafter⟩ := hline
  refine ⟨⟨before, after ++ rest, ?_, h.start, h.number, ?_⟩, fun hmem => hrow ?_⟩
  · change text = before ++ (String.ofList l.text).toList ++ (after ++ rest)
    rw [String.toList_ofList, htext, ← List.append_assoc, List.append_assoc before _ after, hafter]
  · change 0 = l.offset - lineStart before
    rw [h.fresh, h.start, Nat.sub_self]
  · rw [← hafter]
    exact List.mem_append_left _ hmem

end LineBegins

theorem not_mem_of_mem_splitOn {c : Char} {cs : List Char} : ∀ row ∈ cs.splitOn c, c ∉ row := by
  induction cs with
  | nil => simp [List.splitOn_nil]
  | cons d cs ih =>
    rw [List.splitOn_cons_eq_if_modifyHead]
    split
    · exact List.forall_mem_cons.mpr ⟨List.not_mem_nil, ih⟩
    rename_i hd
    cases hrows : cs.splitOn c with
    | nil => exact absurd hrows (List.splitOn_ne_nil c cs)
    | cons row rows =>
      rw [hrows] at ih
      obtain ⟨hrow, hrows⟩ := List.forall_mem_cons.mp ih
      refine List.forall_mem_cons.mpr ⟨fun hmem => ?_, hrows⟩
      exact (List.mem_cons.mp hmem).elim (fun h => hd (beq_iff_eq.mpr h.symm)) hrow

/-- Rows as lines of a source, the first of them with a number and a start. -/
def placeRows (number start : Nat) : List (List Char) → List SourceLine
  | [] => []
  | row :: rows => ⟨number, start, withoutReturn row⟩ :: placeRows (number + 1) (start + byteLength row + 1) rows

theorem linesFrom_eq_placeRows {number start offset : Nat} {line : List Char} (rest : List Char)
    (hline : '\n' ∉ line.reverse) (hoffset : offset = start + byteLength line.reverse) :
    linesFrom number start offset line rest = placeRows number start ((line.reverse ++ rest).splitOn '\n') := by
  induction rest generalizing number start offset line with
  | nil =>
    rw [List.append_nil, List.splitOn_eq_singleton hline]
    rfl
  | cons c rest ih =>
    unfold linesFrom
    split
    · rename_i hc
      subst hc
      rw [List.splitOn_append_cons_self_of_not_mem hline, hoffset]
      exact congrArg _ (ih List.not_mem_nil rfl)
    · rename_i hc
      rw [ih]
      · rw [List.reverse_cons, List.append_assoc]
        rfl
      · rw [List.reverse_cons, List.mem_append, not_or]
        exact ⟨hline, fun hmem => hc (List.mem_singleton.mp hmem).symm⟩
      · rw [hoffset, List.reverse_cons, byteLength_append, Nat.add_assoc]
        rfl

/-- The lines of a source are the rows between its line ends. -/
theorem SourceFile.lines_eq_placeRows (file : SourceFile) :
    file.lines = placeRows 1 0 (file.text.toList.splitOn '\n') :=
  linesFrom_eq_placeRows file.text.toList List.not_mem_nil rfl

/-- Whether a line of a source is one row of a text, from a line end or the start of the text to the next line end
or the end of the text, without one carriage return at its end. -/
def SourceLine.Fills (l : SourceLine) (text : List Char) : Prop :=
  ∃ before row after, text = before ++ row ++ after ∧ LineBegins before l.number l.offset ∧ '\n' ∉ row ∧
    (after = [] ∨ after.head? = some '\n') ∧ EndsLine l.text row

theorem fills_placeRows {text before : List Char} {number start i : Nat} {rows : List (List Char)}
    (hbegins : LineBegins before number start) (htext : text = before ++ ['\n'].intercalate rows)
    (hrows : ∀ row ∈ rows, '\n' ∉ row) (h : (placeRows number start rows)[i]? = some l) :
    l.number = number + i ∧ l.Fills text := by
  induction rows generalizing before number start i with
  | nil => cases h
  | cons row rows ih =>
    obtain ⟨hrow, hrows⟩ := List.forall_mem_cons.mp hrows
    cases i with
    | zero =>
      obtain rfl := Option.some.inj h
      cases rows with
      | nil =>
        rw [List.intercalate_singleton] at htext
        exact ⟨rfl, before, row, [], htext.trans (List.append_nil _).symm, hbegins, hrow, .inl rfl,
          endsLine_withoutReturn row⟩
      | cons next rows =>
        rw [List.intercalate_cons_cons, List.append_assoc, ← List.append_assoc before] at htext
        exact ⟨rfl, before, row, _, htext, hbegins, hrow, .inr rfl, endsLine_withoutReturn row⟩
    | succ i =>
      cases rows with
      | nil => cases h
      | cons next rows =>
        have hnext := hbegins.next hrow
        rw [byteLength_append, ← hbegins.start] at hnext
        rw [List.intercalate_cons_cons, ← List.append_assoc, ← List.append_assoc] at htext
        obtain ⟨hnumber, hfills⟩ := ih hnext htext hrows h
        exact ⟨by omega, hfills⟩

/-- The lines of a source are numbered from 1, and each fills its row. -/
theorem SourceFile.fills_lines {file : SourceFile} {i : Nat} (h : file.lines[i]? = some l) :
    l.number = i + 1 ∧ l.Fills file.text.toList := by
  rw [file.lines_eq_placeRows] at h
  have hbegins : LineBegins [] 1 0 := ⟨rfl, rfl, rfl⟩
  obtain ⟨hnumber, hfills⟩ := fills_placeRows hbegins (List.intercalate_splitOn '\n').symm not_mem_of_mem_splitOn h
  exact ⟨by omega, hfills⟩

theorem standsIn_of_mem_lines (source : SourceId) {file : SourceFile} (h : l ∈ file.lines) :
    (l.token source).StandsIn file.text.toList ∧ '\n' ∉ l.text := by
  obtain ⟨i, hi⟩ := List.mem_iff_getElem?.mp h
  obtain ⟨before, row, after, htext, hbegins, hrow, -, hline⟩ := (SourceFile.fills_lines hi).2
  exact hbegins.standsIn htext hrow hline.isPrefix

/-! ## Classified lines -/

theorem splitComment_prefix (q : Quoting) (cs : List Char) : (splitComment q cs).1 <+: cs := by
  induction cs generalizing q with
  | nil => exact List.prefix_refl _
  | cons c cs ih =>
    unfold splitComment
    split
    · exact List.nil_prefix
    · exact List.prefix_cons_inj c |>.mpr (ih (q.step c))

theorem partOf_keywordLine {p : Piece} {kind : Line.Kind}
    (hp : p.Cuts content.text.toList) (h : keywordLine? set content p = some kind) (ht : t ∈ kind.tokens) :
    t.PartOf content := by
  obtain ⟨before, word, after, htext, hstart, hstop⟩ := hp
  have hword : (content.slice p.start p.stop).PartOf content := Token.partOf_slice before htext hstart hstop
  have hrest : (content.sliceFrom p.stop).trimmed.PartOf content :=
    (Token.partOf_trimmed _).trans
      (Token.partOf_sliceFrom (before ++ word) htext (hstop.trans (byteLength_append _ _).symm))
  unfold keywordLine? at h
  simp only at h
  split at h
  · obtain rfl := Option.some.inj h
    rcases List.mem_cons.mp ht with rfl | ht
    · exact hword
    · exact (Directive.partOf_splitArguments ht).trans hrest
  · split at h
    · obtain rfl := Option.some.inj h
      rcases List.mem_cons.mp ht with rfl | ht
      · exact hword
      · rw [List.mem_singleton.mp ht]
        exact hrest
    · cases h

theorem partOf_classifyPieces {pieces : List Piece} (hpieces : ∀ p ∈ pieces, p.Cuts content.text.toList)
    (ht : t ∈ (classifyPieces set content pieces).1.toList ++ (classifyPieces set content pieces).2.tokens) :
    t.PartOf content := by
  induction pieces with
  | nil => cases ht
  | cons p pieces ih =>
    obtain ⟨hp, hrest⟩ := List.forall_mem_cons.mp hpieces
    have hlabel : ∀ label, labelBefore content p.start = some label → label.PartOf content := by
      obtain ⟨before, word, after, htext, hstart, -⟩ := hp
      rw [List.append_assoc] at htext
      exact fun label => partOf_labelBefore htext hstart
    unfold classifyPieces at ht
    split at ht
    · split at ht
      · rename_i hkind
        simp only [List.mem_append, Option.mem_toList] at ht
        rcases ht with ht | ht
        · exact hlabel t ht
        · exact partOf_keywordLine hp hkind ht
      · exact ih hrest ht
    · split at ht
      · rename_i name hname
        obtain ⟨before, word, after, htext, -, hstop⟩ := hp
        rcases List.mem_cons.mp ht with rfl | ht
        · exact hlabel _ hname
        · rw [List.mem_singleton.mp ht]
          exact (Token.partOf_trimmed _).trans
            (Token.partOf_sliceFrom (before ++ word) htext (hstop.trans (byteLength_append _ _).symm))
      · cases ht
    · exact ih hrest ht

theorem partOf_classifyContent
    (ht : t ∈ (classifyContent set content).1.toList ++ (classifyContent set content).2.tokens) :
    t.PartOf content :=
  partOf_classifyPieces (fun _ hp => Piece.cuts_of_mem_scan hp) ht

theorem partOf_content (source : SourceId) (line : SourceLine) : (Token.mk source line.number 0 line.offset
      (String.ofList (splitComment .outside line.text).1)).trimmed.PartOf (line.token source) := by
  obtain ⟨comment, hcomment⟩ := splitComment_prefix .outside line.text
  have hcut : (line.token source).text.toList = [] ++ (splitComment .outside line.text).1 ++ comment :=
    String.toList_ofList.trans hcomment.symm
  exact (Token.partOf_trimmed _).trans (Token.partOf_place [] hcut)

/-- Every token of a classified line is a part of the line it was read from. -/
theorem partOf_of_mem_classifyLines {source : SourceId} {pending : PendingComment}
    {lines : List SourceLine} {l : ClassifiedLine} (h : l ∈ classifyLines set source pending lines) :
    ∃ line ∈ lines, ∀ t ∈ l.tokens, t.PartOf (line.token source) := by
  induction lines generalizing pending with
  | nil => cases h
  | cons line lines ih =>
    have hcontent := partOf_content source line
    unfold classifyLines at h
    simp only at h
    generalize (Token.mk source line.number 0 line.offset
      (String.ofList (splitComment .outside line.text).1)).trimmed = content at h hcontent
    have hlater : ∀ {pending'}, l ∈ classifyLines set source pending' lines →
        ∃ line' ∈ line :: lines, ∀ t ∈ l.tokens, t.PartOf (line'.token source) := by
      intro pending' hmem
      obtain ⟨line', hline', hparts⟩ := ih hmem
      exact ⟨line', List.mem_cons_of_mem line hline', hparts⟩
    split at h
    · exact hlater h
    rcases List.mem_cons.mp h with rfl | h
    · refine ⟨line, List.mem_cons_self, fun t ht => ?_⟩
      rcases List.mem_cons.mp ht with rfl | ht
      · exact hcontent
      · exact (partOf_classifyContent ht).trans hcontent
    · exact hlater h

/-- Whatever a source says and whatever the instructions are, every token of its classified lines is the text
of the source from its offset on, on the line and in the column of that offset. -/
theorem tokens_standIn (set : InstructionSet) (source : SourceId) (file : SourceFile) :
    ∀ l ∈ classifySource set source file, ∀ t ∈ l.tokens, t.source = source ∧ t.StandsIn file.text.toList := by
  intro l hl t ht
  obtain ⟨line, hline, hparts⟩ := partOf_of_mem_classifyLines hl
  obtain ⟨hstands, hends⟩ := standsIn_of_mem_lines source hline
  have htext : (line.token source).text.toList = line.text := String.toList_ofList
  exact ⟨(hparts t ht).source, hstands.part (by rwa [htext]) (hparts t ht)⟩

/-- A source with characters of several bytes, line ends of both sorts and brackets in an argument. -/
def accentedSource : SourceFile := ⟨"main.asm", "; é\r\n\u00a0ä: .DB (1, 'é'), 2 ; x\nlda"⟩

theorem tokens_standIn_accentedSource : ∃ l ∈ classifySource Platform.mos6502.instructions 0 accentedSource,
    ∃ t ∈ l.tokens, (t.text = "2" ∧ t.line = 2 ∧ t.column = 21 ∧ t.offset = 27) ∧
      t.StandsIn accentedSource.text.toList := by
  have hread : ∃ l ∈ classifySource Platform.mos6502.instructions 0 accentedSource,
      ∃ t ∈ l.tokens, t.text = "2" ∧ t.line = 2 ∧ t.column = 21 ∧ t.offset = 27 := by decide +kernel
  obtain ⟨l, hl, t, ht, hplace⟩ := hread
  exact ⟨l, hl, t, ht, hplace, (tokens_standIn _ 0 accentedSource l hl t ht).2⟩

end CrossAssembler
