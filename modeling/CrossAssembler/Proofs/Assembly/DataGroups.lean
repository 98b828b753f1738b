import CrossAssembler.Proofs.Assembly.Enumerations

/-!
# Data groups

The index of a data group is made when its rows are declared, and its bytes are written in every pass. Both count
the same cells.

Principal result: `dataGroups_agree` — the labels of rows, the index and the bytes of the final pass.
-/

namespace CrossAssembler

/-- A byte of a word is one of its digits in base 256. -/
theorem getElem?_littleEndian (width : Nat) (value : Int) {j : Nat} (hj : j < width) :
    (littleEndian width value)[j]? = some (UInt8.ofNat (value / 256 ^ j % 256).toNat) := by
  induction width generalizing value j with
  | zero => exact absurd hj (Nat.not_lt_zero j)
  | succ width ih =>
    cases j with
    | zero => simp [littleEndian]
    | succ j =>
      rw [littleEndian, List.getElem?_cons_succ, ih _ (Nat.lt_of_succ_lt_succ hj), pow_succ',
        Int.ediv_ediv_of_nonneg (by norm_num)]

/-- The numbers of cells under which an index lists names. -/
def DataGroup.numbers (g : DataGroup) : List (String × List Nat) := g.index.map fun entry => (entry.1, entry.2.map Prod.snd)

namespace Assembly

variable {s : Assembly} {width : Nat}

/-- The bytes of words of the same width, one after another. -/
theorem getElem?_words (words : List Int64) {e j : Nat} {n : Int64} (he : words[e]? = some n) (hj : j < width) :
    (words.flatMap fun n => (littleEndian width n.toInt).map (some : UInt8 → Cell))[e * width + j]? =
      some (some (UInt8.ofNat (n.toInt / 256 ^ j % 256).toNat)) := by
  induction words generalizing e with
  | nil => cases he
  | cons first words ih =>
    rw [List.flatMap_cons]
    cases e with
    | zero =>
      cases he
      rw [Nat.zero_mul, Nat.zero_add, List.getElem?_append_left (by simpa using hj), List.getElem?_map,
        getElem?_littleEndian width _ hj]
      rfl
    | succ e =>
      have hplace : (e + 1) * width + j = width + (e * width + j) := by ring
      rw [hplace, List.getElem?_append_right (by simp), List.length_map, littleEndian_length, Nat.add_sub_cancel_left]
      exact ih he

/-- Where the bytes of cells stand that each make one cell of data. -/
theorem LaidOut.bytes {scope : ScopeId} {tokens : List Token} {out : List Cell} (h : s.LaidOut scope width tokens out) :
    ∃ evaluations, List.Forall₂ (s.Weighs scope) tokens evaluations ∧
      ((∀ e ∈ evaluations, e.IsSingle) → out.length = tokens.length * width ∧
        ∀ (e : Nat) (evaluation : Evaluation), evaluations[e]? = some evaluation → ∃ n, evaluation.word? = some n ∧
          ∀ j < width, out[e * width + j]? = some (some (UInt8.ofNat (n.toInt / 256 ^ j % 256).toNat))) := by
  obtain ⟨evaluations, hweighs, hwords⟩ := h
  refine ⟨evaluations, hweighs, fun hsingle => ?_⟩
  obtain ⟨words, hmap, rfl⟩ := hwords hsingle
  have hlength : words.length = tokens.length := by
    have heq := congrArg List.length hmap
    rw [List.length_map, List.length_map] at heq
    exact heq.symm.trans hweighs.length_eq.symm
  refine ⟨?_, fun e evaluation he => ?_⟩
  · rw [List.length_flatMap, ← hlength]
    simp
  have hword : (words.map some)[e]? = some evaluation.word? := by
    rw [← hmap, List.getElem?_map, he]
    rfl
  rw [List.getElem?_map] at hword
  obtain ⟨n, hn, heq⟩ := Option.map_eq_some_iff.mp hword
  exact ⟨n, heq.symm, fun j hj => getElem?_words words hn hj⟩

/-- A data group that is compiled writes bytes. -/
theorem compileLine_group {calls files : Assembly → List Item → Flow × Assembly} {id : LineId} {part : Line.CommandPart}
    {cells : List GroupCell} (hkind : (s.line id).kind = .command part) (hopens : part.directive.opens .endGroup = true)
    (hstate : part.state = .group cells) (hskipped : (s.line id).isSkipped = false) :
    ∃ (out : List Cell) (t : Assembly), compileLine calls files s id = (.next, t.emit id out) := by
  have hentered := ((writes_enterLine s id).kinds id).trans hkind
  rw [compileLine, if_neg (Bool.eq_false_iff.mp hskipped)]
  simp only [hentered, compileCommand]
  cases hd : part.directive with
  | byteGroup | wordGroup | longGroup =>
    simp only [compileGroup, hstate]
    exact ⟨_, _, rfl⟩
  | _ =>
    rw [hd] at hopens
    cases hopens

theorem Concluded.indexed (h : Concluded s) : s.Failed ∨ s.Indexed := by
  obtain ⟨t, index, u, _, hprepared, hvisits, rfl⟩ := h
  have hbegin := hprepared.beginPass index true
  have hend := hvisits.steps.indexed hbegin.sound hbegin.indexed
  split
  · exact (Change.report _ : Change .all u _).indexed (hvisits.sound hbegin.sound) hend
  · exact hend

/-- **Data groups agree with their bytes.** Take work that is not told to stop and reports no error. Every index of
a data group tells exactly where names stand in the group that it is named after: a cell that is a name has its own
number, and the name of a row that of the first cell of the row. The cells of a data group are those of its rows, in
order, and the name of a row, after that of the group, is that of a label whose value is the number of cells in the
rows before. A data group that is compiled writes bytes. What it writes in the final pass comes from one evaluation of
each cell, and if all of them come to numbers or to strings of one character, cell number `e` takes up the bytes from
`e * width` on, the lowest first, and there are no others. -/
theorem dataGroups_agree (settings : Settings) (files : Files) (inputs : List (Path × String))
    (hrunning : (compileAll settings files inputs).stopped = false)
    (hpassed : (compileAll settings files inputs).diagnostics.hasErrors = false) :
    let s := compileAll settings files inputs
    s.pass.isFinal = true ∧ (∀ g ∈ s.symbols.groups, s.Describes g) ∧
    ∀ id part cells width, (s.line id).kind = .command part → part.directive.opens .endGroup = true →
      part.directive.cellWidth? = some width → part.state = .group cells →
      let rows := s.texts (part.body.getD [])
      let tokens := cells.map fun c => c.token
      tokens = rows.flatMap rowCells ∧
      (∀ before row after name, rows = before ++ row :: after → (splitRow row).1 = some name →
        ∃ label, (label, id) ∈ s.rowLabels ∧
          (s.symbols.label label).token = { name with text := rowLabel (s.line id).groupName? name.text } ∧
          (s.symbols.label label).value = some (.ofWord (Int64.ofNat (before.flatMap rowCells).length))) ∧
      (∀ calls files (t : Assembly), (t.line id).kind = .command part → (t.line id).isSkipped = false →
        ∃ (out : List Cell) (u : Assembly), compileLine calls files t id = (.next, u.emit id out)) ∧
      ∀ out, .emitted id out ∈ s.journal →
        ∃ evaluations, List.Forall₂ (s.Weighs (s.line id).scope) tokens evaluations ∧
          ((∀ e ∈ evaluations, e.IsSingle) → out.length = tokens.length * width ∧
            ∀ (e : Nat) (evaluation : Evaluation), evaluations[e]? = some evaluation → ∃ n, evaluation.word? = some n ∧
              ∀ j < width, out[e * width + j]? = some (some (UInt8.ofNat (n.toInt / 256 ^ j % 256).toNat))) := by
  have hconcluded := (concluded_compileAll settings files inputs).resolve_left (by rw [hrunning]; nofun)
  generalize compileAll settings files inputs = s at hpassed hconcluded ⊢
  have hindexed : s.Indexed := hconcluded.indexed.resolve_left fun hfailed => Bool.false_ne_true (hpassed.symm.trans hfailed)
  refine ⟨hconcluded.sound.2, hindexed.groups, fun id part cells width hkind hopens hwidth hstate => ?_⟩
  have htable : (s.line id).table? = some (part.body.getD [], cells.map fun c => c.token) := by
    simp only [Line.table?, hkind, hstate]
  have htabulated := hindexed.tables id _ htable
  refine ⟨htabulated.cells, htabulated.labels, fun _ _ t hkind' => compileLine_group hkind' hopens hstate, fun out hout => ?_⟩
  obtain ⟨rows, ⟨part', hkind', -, -, rfl⟩, hlaid⟩ :=
    (hindexed.written id out hout).2 part.directive width (directive_of_kind hkind) hopens hwidth
  rw [hkind] at hkind'
  cases hkind'
  rw [← htabulated.cells] at hlaid
  exact hlaid.bytes

/-- Rows with and without names, a string with a comma, and a cell that is known only in the second pass. -/
def groupedInputs : List (Path × String) :=
  [("main.asm", "table: .DWG\none: 1, \",\"\n$1234\ntwo: later\n.ENDD\nlater: .DB table.two\n")]

set_option maxRecDepth 100000 in
theorem dataGroups_agree_grouped : let s := compileAll {} (fun _ => .missing) groupedInputs
    (s.stopped = false ∧ s.diagnostics.hasErrors = false ∧
      s.written = [(0, [1, 0, 44, 0, 52, 18, 8, 0].map some), (5, [some 3])] ∧
      s.symbols.groups.map DataGroup.numbers = [[("one", [0]), ("two", [3]), ("later", [3])]]) ∧
      s.pass.isFinal = true ∧ ∀ g ∈ s.symbols.groups, s.Describes g := by
  have hclean : let s := compileAll {} (fun _ => .missing) groupedInputs
      s.stopped = false ∧ s.diagnostics.hasErrors = false ∧
        s.written = [(0, [1, 0, 44, 0, 52, 18, 8, 0].map some), (5, [some 3])] ∧
        s.symbols.groups.map DataGroup.numbers = [[("one", [0]), ("two", [3]), ("later", [3])]] := by decide +kernel
  obtain ⟨hfinal, hgroups, -⟩ := dataGroups_agree {} (fun _ => .missing) groupedInputs hclean.1 hclean.2.1
  exact ⟨hclean, hfinal, hgroups⟩

end Assembly

end CrossAssembler
