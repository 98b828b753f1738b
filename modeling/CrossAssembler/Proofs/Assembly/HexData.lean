import CrossAssembler.Proofs.Assembly.Hexadecimal
import CrossAssembler.Proofs.Assembly.Passes
import CrossAssembler.Proofs.Source.Literals

/-!
# Hexadecimal data from its line to the output

Principal result: `hexData_settled` — what is written as bytes is put out as those bytes, and everything else is
rejected at its first fault.
-/

namespace CrossAssembler.Assembly

open Text

variable {first s t u : Assembly} {id : LineId} {bytes : List UInt8} {index : Nat} {last : Bool}

/-! ## What comes later -/

/-- What can come of a state: steps of the analysis and of passes, and beginnings of passes. -/
inductive Reaches (s : Assembly) : Assembly → Prop
  | refl : Reaches s s
  | step {t u : Assembly} (h : Reaches s t) (hstep : Step .all t u) : Reaches s u
  | begin {t : Assembly} (h : Reaches s t) (index : Nat) (last : Bool) : Reaches s (t.beginPass index last)

namespace Reaches

theorem steps (h : Reaches s t) (hsteps : Steps .all t u) : Reaches s u := by
  induction hsteps with
  | refl => exact h
  | tail _ hstep ih => exact ih.step hstep

theorem makesPass (h : Reaches s first) (hfirst : Prepared first) (hpass : MakesPass first t index last) :
    Reaches s t := by
  induction hpass with
  | begin => exact h
  | next hbefore _ ih =>
    obtain ⟨⟨_, hvisits⟩, -⟩ := visits_runPass (hbefore.prepared hfirst) _ false
    exact (ih.begin _ false).steps hvisits.steps.all

/-- Whatever is done, lines stay in error, and data that has been read stays as it is. -/
theorem kept (h : Reaches s t) (hs : s.Sound) : t.Sound ∧ s.lines.size ≤ t.lines.size ∧ LinesKept s t := by
  induction h with
  | refl => exact ⟨hs, Nat.le_refl _, .of_lines rfl⟩
  | step _ hstep ih =>
    obtain ⟨hsound, hle, hkept⟩ := ih
    exact ⟨hstep.sound hsound, hle.trans hstep.size_le, hkept.trans (Steps.linesKept (.single hstep) hsound) hle⟩
  | begin _ index last ih =>
    obtain ⟨hsound, hle, hkept⟩ := ih
    exact ⟨hsound.beginPass index last, hle, hkept.trans (.of_lines rfl) hle⟩

end Reaches

/-! ## Output -/

/-- Whether a line puts out some bytes whenever it is compiled. It takes no part only when there is an error. -/
def PutsOut (s : Assembly) (id : LineId) (bytes : List UInt8) : Prop :=
  ∀ t, Reaches s t → (∀ calls files, (t.line id).isSkipped = false →
      compileLine calls files t id = (.next, (t.enterLine id).emit id (bytes.map some))) ∧
    ((t.line id).isSkipped = true → t.Failed)

/-- Whether a line is in error after a step that reports it, and puts out nothing. -/
structure Rejects (s s' : Assembly) (id : LineId) (span : Span) (message : String) : Prop where
  reported : s'.diagnostics = s.diagnostics.push { severity := .error, message, primary := span }
  error : ∀ t, Reaches s' t → (t.line id).state = .error
  silent : ∀ t, Reaches s' t → ∀ calls files, compileLine calls files t id = (.next, t)

theorem compileLine_of_holds {calls files : Assembly → List Item → Flow × Assembly} (h : (t.line id).Holds (.bytes bytes))
    (hskipped : (t.line id).isSkipped = false) :
    compileLine calls files t id = (.next, (t.enterLine id).emit id (bytes.map some)) := by
  obtain ⟨part, hkind, hdirective, hstate, -⟩ := h
  have hentered := ((writes_enterLine t id).kinds id).trans hkind
  rw [compileLine, if_neg (Bool.eq_false_iff.mp hskipped)]
  simp only [hentered, compileCommand, hdirective, compileHex, hstate]

theorem putsOut_of_holds (hs : s.Sound) (hid : id < s.lines.size) (h : (s.line id).Holds (.bytes bytes)) :
    PutsOut s id bytes := by
  intro t ht
  obtain ⟨hsound, hle, hkept⟩ := ht.kept hs
  exact ⟨fun _ _ hskipped => compileLine_of_holds ((hkept.line id hid).data _ h) hskipped,
    hsound.skipped id (Nat.lt_of_lt_of_le hid hle)⟩

theorem rejects_of_error {s' : Assembly} {span : Span} {message : String} (hs : s.Sound) (hid : id < s.lines.size)
    (hchanges : Changes .all s s')
    (hreported : s'.diagnostics = s.diagnostics.push { severity := .error, message, primary := span })
    (h : (s'.line id).state = .error) : Rejects s s' id span message := by
  have herror : ∀ t, Reaches s' t → (t.line id).state = .error := fun t ht =>
    ((ht.kept (hchanges.sound hs)).2.2.line id (Nat.lt_of_lt_of_le hid hchanges.size_le)).error h
  refine ⟨hreported, herror, fun t ht calls files => ?_⟩
  rw [compileLine, if_pos]
  rw [Line.isSkipped, herror t ht]
  rfl

theorem state_mark {l : Line} (h : l.state = .unresolved) (state : LineState) : (l.mark state).state = state := by
  unfold Line.mark
  rw [h]

theorem line_mark (hid : id < s.lines.size) (state : LineState) :
    (s.mark id state).line id = (s.line id).mark state := by
  rw [mark, line_modifyLine, if_pos ⟨rfl, hid⟩]

theorem error_fail (hid : id < s.lines.size) (h : (s.line id).state = .unresolved) (span : Span) (message : String) :
    ((s.fail id span message).line id).state = .error := by
  rw [fail, line_mark (show id < (s.report _).lines.size from hid)]
  exact state_mark h .error

/-! ## Lines of data -/

section

variable {part : Line.CommandPart} {rest : Token}

theorem declareLine_blank {declare : Assembly → List Item → Assembly} (hid : id < s.lines.size)
    (hkind : (s.line id).kind = .command part) (hdirective : part.directive = .hexBytes) (hblank : part.arguments = [])
    (hstate : (s.line id).state = .unresolved) :
    declareLine declare s id = s.fail id part.keyword.span ".HEX expects at least 1 argument(s), found 0" := by
  have hcheck : s.checkArguments id = s.fail id part.keyword.span ".HEX expects at least 1 argument(s), found 0" := by
    simp only [checkArguments, Line.command?, hkind, hdirective, hblank]
    rfl
  have hskipped : (s.line id).isSkipped = false := by
    rw [Line.isSkipped, hstate]
    rfl
  have herror := error_fail hid hstate part.keyword.span ".HEX expects at least 1 argument(s), found 0"
  rw [declareLine]
  simp only [hskipped, Bool.false_eq_true, if_false, hkind]
  rw [declareCommand, hcheck]
  simp only [Line.isSkipped, herror]
  rfl

theorem parseItem_hexBytes {calls files : Assembly → List Item → Assembly}
    (hkind : (s.line id).kind = .command part) (hdirective : part.directive = .hexBytes)
    (hstate : (s.line id).state = .unresolved) :
    parseItem calls files s (.line id) = (s.parseHex id part).mark id .finished := by
  have hskipped : (s.line id).isSkipped = false := by
    rw [Line.isSkipped, hstate]
    rfl
  have hparse : parseCommand files s (.line id) part = s.parseHex id part := by
    rw [parseCommand, hdirective]
    rfl
  rw [parseItem_command hskipped hkind, hparse]
  rfl

theorem exists_solid (h : rest.trimmed.isEmpty = false) : ∃ c ∈ rest.trimmed.text.toList, isBlank c = false := by
  have hne : trim rest.text.toList ≠ [] := by
    rw [← toList_text_trimmed]
    intro hnil
    rw [Token.isEmpty, String.isEmpty_iff.mpr (String.toList_eq_nil_iff.mp hnil)] at h
    cases h
  rw [toList_text_trimmed]
  have hdropped : (trimStart rest.text.toList).reverse.dropWhile isBlank ≠ [] := fun h =>
    hne (List.reverse_eq_nil_iff.mpr h)
  exact ⟨_, List.mem_reverse.mpr (List.head_mem hdropped), List.head_dropWhile_not isBlank hdropped⟩

theorem holds_parseHex {argument : Token} (hid : id < s.lines.size) (hkind : (s.line id).kind = .command part)
    (hdirective : part.directive = .hexBytes) (hargument : part.arguments = [argument])
    (hstate : (s.line id).state = .unresolved) (hread : readHex argument.text.toList = .ok bytes) :
    (((s.parseHex id part).mark id .finished).line id).Holds (.bytes bytes) ∧
      (((s.parseHex id part).mark id .finished).line id).state = .finished ∧
      (s.parseHex id part).diagnostics = s.diagnostics := by
  have hparse : s.parseHex id part = s.setDirectiveState id (.binary bytes) := by
    simp only [parseHex, hargument, hread]
  have hid' : id < (s.setDirectiveState id (.binary bytes)).lines.size := by
    rw [setDirectiveState, size_modifyLine]
    exact hid
  have hline : (s.setDirectiveState id (.binary bytes)).line id =
      { s.line id with kind := .command { part with state := .binary bytes } } := by
    rw [setDirectiveState, line_modifyLine, if_pos ⟨rfl, hid⟩, kind_modifyCommand hkind]
  have hunresolved : ((s.setDirectiveState id (.binary bytes)).line id).state = .unresolved := by
    rw [hline]
    exact hstate
  rw [hparse, line_mark hid']
  refine ⟨⟨{ part with state := .binary bytes }, ?_, hdirective, rfl, argument, [], hargument, hread⟩,
    state_mark hunresolved .finished, rfl⟩
  rw [Line.kind_mark, hline]

theorem parseHex_fault (s : Assembly) (id : LineId) {argument : Token} {start : Nat} {run : List Char}
    (hargument : part.arguments = [argument]) (herror : readHex argument.text.toList = .error (start, run)) :
    s.parseHex id part = s.fail id (argument.place start run).span s!"invalid hex group '{String.ofList run}'" := by
  simp only [parseHex, hargument, herror]
  rfl

end

/-- **Hexadecimal data settles.** A directive for such data has the text after its keyword without the blanks around
it as its only argument. If that is how some bytes are written, two digits of any case for each and in groups of whole
bytes with blanks between them, the line is finished without a report, and whatever is done later, in whatever pass,
compiling it puts out these bytes; it is left out only if there is an error. Any other argument is reported at its
first group that is no whole bytes, and a missing one at the keyword. The line then stays in error and puts out
nothing. -/
theorem hexData_settled (declare calls files : Assembly → List Item → Assembly) {part : Line.CommandPart}
    {rest : Token} (hs : s.Sound) (hid : id < s.lines.size) (hkind : (s.line id).kind = .command part)
    (hdirective : part.directive = .hexBytes) (harguments : part.arguments = Directive.hexBytes.splitArguments rest)
    (hstate : (s.line id).state = .unresolved) :
    let argument := rest.trimmed
    let read := parseItem calls files s (.line id)
    (∀ bytes, bytes ≠ [] → HexText bytes argument.text.toList →
      (read.line id).state = .finished ∧ read.diagnostics = s.diagnostics ∧ PutsOut read id bytes) ∧
    ((∀ bytes, bytes ≠ [] → ¬ HexText bytes argument.text.toList) →
      (argument.isEmpty = false → ∃ start run, FirstFault argument.text.toList start run ∧
        Rejects s read id (argument.place start run).span s!"invalid hex group '{String.ofList run}'") ∧
      (argument.isEmpty = true → Rejects s (declareLine declare s id) id part.keyword.span
          ".HEX expects at least 1 argument(s), found 0")) := by
  intro argument read
  have hargument : argument.isEmpty = false → part.arguments = [argument] := fun h =>
    harguments.trans (if_neg (Bool.eq_false_iff.mp h))
  have hread : read = (s.parseHex id part).mark id .finished := parseItem_hexBytes hkind hdirective hstate
  have hchanges : Changes .all s read := by
    rw [hread]
    exact (changes_parseHex trivial hkind hdirective).tail (.mark id .finished nofun)
  refine ⟨fun bytes hne htext => ?_, fun hother => ⟨fun hsome => ?_, fun hnone => ?_⟩⟩
  · have hbytes := readHex_of_hexText htext
    have hsome : argument.isEmpty = false := by
      refine Bool.eq_false_iff.mpr fun hempty => hne ?_
      rw [String.isEmpty_iff.mp hempty] at hbytes
      exact (Except.ok.inj hbytes).symm
    obtain ⟨hholds, hfinished, hquiet⟩ := holds_parseHex hid hkind hdirective (hargument hsome) hstate hbytes
    rw [← hread] at hholds hfinished
    refine ⟨hfinished, ?_, putsOut_of_holds (hchanges.sound hs) (Nat.lt_of_lt_of_le hid hchanges.size_le) hholds⟩
    rw [hread]
    exact hquiet
  · rcases readHex_cases argument.text.toList with ⟨bytes, htext, -⟩ | ⟨start, run, hfault, herror⟩
    · obtain ⟨c, hc, hsolid⟩ := exists_solid hsome
      have hnil : bytes = [] := of_not_not fun hne => hother bytes hne htext
      rw [hnil] at htext
      exact absurd (htext.isBlank c hc) (Bool.eq_false_iff.mp hsolid)
    · have hparse := parseHex_fault s id (hargument hsome) herror
      refine ⟨start, run, hfault, rejects_of_error hs hid hchanges ?_ ?_⟩
      · rw [hread, hparse]
        rfl
      · rw [hread, hparse]
        exact (writes_mark _ id .finished).error id (error_fail hid hstate _ _)
  · rw [declareLine_blank hid hkind hdirective (harguments.trans (if_pos hnone)) hstate]
    exact rejects_of_error hs hid (changes_fail s id _ _) rfl (error_fail hid hstate _ _)

/-- Two groups in both cases, before they are analysed. -/
def hexSource : Assembly := (begin {} fun _ => .missing).addFile "main.asm" ".HEX 01fF  2a\n"

/-- The directive of the only line of `hexSource`. -/
def hexPart : Line.CommandPart :=
  match (hexSource.line 0).kind with
  | .command part => part
  | _ => ⟨.hexBytes, ⟨0, 1, 0, 0, ""⟩, [], [], none, none, .none⟩

theorem hexData_settled_groups : let rest : Token := ⟨0, 1, 4, 4, " 01fF  2a"⟩
    let read := parseItem (fun s _ => s) (fun s _ => s) hexSource (.line 0)
    (hexSource.line 0).kind = .command hexPart ∧ hexPart.directive = .hexBytes ∧
      hexPart.arguments = Directive.hexBytes.splitArguments rest ∧ (hexSource.line 0).state = .unresolved ∧
      HexText [0x01, 0xff, 0x2a] rest.trimmed.text.toList ∧
      (read.line 0).state = .finished ∧ read.diagnostics = hexSource.diagnostics ∧
      PutsOut read 0 [0x01, 0xff, 0x2a] := by
  intro rest read
  obtain ⟨_, hhalfway⟩ := halfway_addFile (halfway_begin {} fun _ => .missing) "main.asm" ".HEX 01fF  2a\n"
  have hkind : (hexSource.line 0).kind = .command hexPart := by rfl
  have hdirective : hexPart.directive = .hexBytes := by decide +kernel
  have harguments : hexPart.arguments = Directive.hexBytes.splitArguments rest := by decide +kernel
  have hstate : (hexSource.line 0).state = .unresolved := by decide +kernel
  have htext : HexText [0x01, 0xff, 0x2a] rest.trimmed.text.toList := hexText_of_readHex (by cbv)
  have hid : 0 < hexSource.lines.size := by decide +kernel
  have hsettled := hexData_settled (fun s _ => s) (fun s _ => s) (fun s _ => s) hhalfway.sound hid hkind hdirective
    harguments hstate
  exact ⟨hkind, hdirective, harguments, hstate, htext, hsettled.1 _ (by decide) htext⟩

end CrossAssembler.Assembly
