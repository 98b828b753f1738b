import CrossAssembler.Proofs.Assembly.Arrangement

/-!
# Declaring data groups

The index of a data group is built from the texts of its rows while they are declared. Row by row, the cells
are those of the rows so far, and the index says where names stand in them.

Principal result: `declareRows_spec` — rows keep the index in step with the cells.
-/

namespace CrossAssembler

theorem Value.eq_ofWord_of_beq {v : Value} {n : Int64} (h : (v == Value.ofWord n) = true) : v = Value.ofWord n := by
  cases v with
  | string text => cases h
  | number m =>
    cases m with
    | real x => cases h
    | int k =>
      have hk : (k == n) = true := h
      rw [eq_of_beq hk]
      rfl

namespace DataGroup

theorem mem_recordIn {name n : String} {place p : Token × Nat} (index : List (String × List (Token × Nat))) :
    (∃ places, (n, places) ∈ recordIn name place index ∧ p ∈ places) ↔
      (∃ places, (n, places) ∈ index ∧ p ∈ places) ∨ n = name ∧ p = place := by
  induction index with
  | nil => simp [recordIn]
  | cons entry rest ih =>
    obtain ⟨m, old⟩ := entry
    unfold recordIn
    split
    · rename_i hm
      subst hm
      simp only [List.mem_cons, Prod.mk.injEq, or_and_right, exists_or, and_assoc, exists_and_left, exists_eq_left,
        List.mem_append, List.not_mem_nil, or_false, and_or_left]
      exact or_right_comm
    · simp only [List.mem_cons, or_and_right, exists_or, ih, or_assoc]

theorem records_record {g : DataGroup} {name n : String} {token t : Token} {element e : Nat} :
    (g.record name token element).Records n t e ↔ g.Records n t e ∨ n = name ∧ t = token ∧ e = element := by
  rw [Records, record, mem_recordIn, Prod.mk.injEq]
  rfl

end DataGroup

namespace Assembly

variable {s s' : Assembly} {may : Permit} {id row : LineId} {label : LabelId} {rows : List LineId}
variable {b b' : GroupBuilder} {token : Token} {element : Nat}

/-! ## Values of the labels of rows -/

theorem value_setLabelValue (n : Int64) (hlt : label < s.symbols.labels.size) :
    ((s.setLabelValue label (some (.ofWord n))).symbols.label label).value = some (.ofWord n) := by
  obtain ⟨progress, hset⟩ := setLabelValue_eq s label (some (.ofWord n))
  rw [hset]
  simp only [SymbolTable.setValue]
  split
  · rename_i hsame
    cases hold : (s.symbols.label label).value with
    | none =>
      rw [hold] at hsame
      cases hsame
    | some v =>
      rw [hold] at hsame
      rw [Value.eq_ofWord_of_beq hsame]
  · rw [SymbolTable.label_modifyLabel, if_pos ⟨rfl, hlt⟩]

theorem value_setLabelValue_of_ne {other : LabelId} (value : Option Value) (h : other ≠ label) :
    ((s.setLabelValue label value).symbols.label other).value = (s.symbols.label other).value := by
  obtain ⟨progress, hset⟩ := setLabelValue_eq s label value
  rw [hset]
  simp only [SymbolTable.setValue]
  split
  · rfl
  · rw [SymbolTable.label_modifyLabel, if_neg fun heq => h heq.1]

theorem rowLabels_setLabelValue (s : Assembly) (label : LabelId) (value : Option Value) :
    (s.setLabelValue label value).rowLabels = s.rowLabels := by
  obtain ⟨progress, hset⟩ := setLabelValue_eq s label value
  rw [hset]

theorem Free.ne {row : LabelId} (h : s.Free label) (hrow : (row, id) ∈ s.rowLabels) : row ≠ label :=
  fun heq => h.2 id (heq ▸ hrow)

theorem Sound.row_inj (hs : s.Sound) {other : LineId} (h : (label, id) ∈ s.rowLabels)
    (h' : (label, other) ∈ s.rowLabels) : id = other :=
  congrArg Prod.snd (List.inj_on_of_nodup_map hs.distinct h h' rfl)

/-- The label of a row gets no value in a change but for its first one, as the label of a row of a data group. -/
theorem Change.value_row (h : Change may s s') (hs : s.Sound) (hrow : (label, id) ∈ s'.rowLabels)
    (hset : ¬ s.Awaits label) : (s'.symbols.label label).value = (s.symbols.label label).value := by
  cases h with
  | around _ hsymbols => rw [hsymbols]
  | report | mark | modify | name | push => rfl
  | define _ hcreate => exact SymbolTable.value_createLabel hs.freeLabels hcreate label
  | assign other value _ hfree =>
    rw [rowLabels_setLabelValue] at hrow
    refine value_setLabelValue_of_ne value ?_
    rcases hfree with hfree | hawaits
    · exact hfree.ne hrow
    · exact fun heq => hset (heq ▸ hawaits)
  | document other doc =>
    exact (keeps_setDoc s other doc).value label
  | register symbols hlabels => rw [SymbolTable.label, SymbolTable.label, hlabels]
  | addScope => rw [SymbolTable.addScope_of_free hs.freeScopes]; rfl

/-! ## Tables -/

theorem Tabulated.id_lt {tokens : List Token} (h : s.Tabulated id rows tokens) : id < s.lines.size := by
  obtain ⟨d, hd, -⟩ := h.group
  refine Nat.lt_of_not_le fun hge => ?_
  rw [line_of_size_le hge] at hd
  cases hd

theorem LinesKept.texts (h : LinesKept s s') (hrows : ∀ row ∈ rows, row < s.lines.size) : s'.texts rows = s.texts rows :=
  List.map_congr_left fun row hrow => (h.line row (hrows row hrow)).origin

theorem LineKept.groupName {l l' : Line} {d : Directive} (h : LineKept l l') (hd : l.directive? = some d) :
    l'.groupName? = l.groupName? := by rw [Line.groupName?, Line.groupName?, h.front hd]

theorem Tabulated.after {tokens : List Token} (h : s.Tabulated id rows tokens) (hs : s.Sound)
    (hlines : LinesKept s s') (hsize : s.lines.size ≤ s'.lines.size) (hlater : Later s s')
    (hvalue : ∀ label, (label, id) ∈ s.rowLabels → (s.symbols.label label).value ≠ none →
      (s'.symbols.label label).value = (s.symbols.label label).value) : s'.Tabulated id rows tokens where
  group := (hlines.directive id h.id_lt).symm ▸ h.group
  made row hrow := Nat.lt_of_lt_of_le (h.made row hrow) hsize
  cells := (hlines.texts h.made).symm ▸ h.cells
  labels before row after name hrows hname := by
    rw [hlines.texts h.made] at hrows
    obtain ⟨label, hmem, htoken, hlabel⟩ := h.labels before row after name hrows hname
    obtain ⟨d, hd, -⟩ := h.group
    rw [(hlines.line id h.id_lt).groupName hd]
    refine ⟨label, hlater.kept hmem, ?_, (hvalue label hmem (hlabel ▸ nofun)).trans hlabel⟩
    exact (congrArg Prod.snd (hlater.identity label (hs.rowLabels _ hmem).1)).trans htoken

theorem Changes.tabulated (hrun : Changes may s s') (hs : s.Sound) {tokens : List Token}
    (h : s.Tabulated id rows tokens) : s'.Tabulated id rows tokens := by
  induction hrun with
  | refl => exact h
  | tail hrun hstep ih =>
    have hsound := Changes.sound hrun hs
    have hlater := hstep.later hsound
    exact ih.after hsound (hstep.linesKept hsound) hstep.size_le hlater fun label hmem hvalue =>
      hstep.value_row hsound (hlater.kept hmem) fun hawaits => hvalue hawaits.1

theorem Describes.after {g : DataGroup} (h : s.Describes g) (hlines : LinesKept s s')
    (hsize : s.lines.size ≤ s'.lines.size) : s'.Describes g := by
  obtain ⟨id, rows, hholds, hmade, hname, hsource, hindex⟩ := h
  have hid : id < s.lines.size := by
    refine Nat.lt_of_not_le fun hge => ?_
    obtain ⟨part, hkind, -⟩ := hholds
    rw [line_of_size_le hge] at hkind
    cases hkind
  have hkept := hlines.line id hid
  refine ⟨id, rows, hkept.data _ hholds, fun row hrow => Nat.lt_of_lt_of_le (hmade row hrow) hsize, ?_, ?_, ?_⟩
  · obtain ⟨part, hkind, -⟩ := hholds
    exact (hkept.groupName (directive_of_kind hkind)).trans hname
  · rw [hkept.origin]
    exact hsource
  · rw [hlines.texts hmade]
    exact hindex

theorem LaidOut.mono {scope : ScopeId} {width : Nat} {tokens : List Token} {out : List Cell}
    (h : s.LaidOut scope width tokens out) (hjournal : s.journal ⊆ s'.journal) : s'.LaidOut scope width tokens out := by
  obtain ⟨evaluations, hweighs, hwords⟩ := h
  exact ⟨evaluations, hweighs.imp fun _ _ h => ⟨hjournal h.1, h.2⟩, hwords⟩

/-- Whether a line has written the cells of its rows, if it is a data group. -/
def Written (s : Assembly) (id : LineId) (out : List Cell) : Prop :=
  id < s.lines.size ∧ ∀ d width, (s.line id).directive? = some d → d.opens .endGroup = true → d.cellWidth? = some width →
    ∃ rows, (s.line id).Holds (.rows rows) ∧ s.LaidOut (s.line id).scope width ((s.texts rows).flatMap rowCells) out

theorem Written.after {out : List Cell} (h : s.Written id out) (hs : s.Sound) (hlines : LinesKept s s')
    (hsize : s.lines.size ≤ s'.lines.size) (hjournal : s.journal ⊆ s'.journal) : s'.Written id out := by
  refine ⟨Nat.lt_of_lt_of_le h.1 hsize, fun d width hd hopens hwidth => ?_⟩
  rw [hlines.directive id h.1] at hd
  obtain ⟨rows, hholds, hout⟩ := h.2 d width hd hopens hwidth
  refine ⟨rows, (hlines.line id h.1).data _ hholds, ?_⟩
  have hmade : ∀ row ∈ rows, row < s.lines.size := by
    obtain ⟨part, hkind, -, -, rfl⟩ := hholds
    have hrows := hs.rows id
    rwa [Line.rows, hkind] at hrows
  rw [hlines.scope id h.1, hlines.texts hmade]
  exact hout.mono hjournal

/-- Whether every data group has the cells of its rows, every index says where names stand in one, and what a data
group has written in the running pass are its cells. -/
structure Indexed (s : Assembly) : Prop where
  tables : ∀ id table, (s.line id).table? = some table → s.Tabulated id table.1 table.2
  groups : ∀ g ∈ s.symbols.groups, s.Describes g
  written : ∀ id out, .emitted id out ∈ s.journal → s.Written id out

theorem Line.holds_of_table {l : Line} {table : List LineId × List Token} {d : Directive} (h : l.table? = some table)
    (hd : l.directive? = some d) (hopens : d.opens .endGroup = true) : l.Holds (.rows table.1) := by
  unfold Line.table? at h
  split at h
  · rename_i part hkind
    split at h
    · rename_i cells hstate
      rw [directive_of_kind hkind] at hd
      cases hd
      cases h
      exact ⟨part, hkind, hopens, ⟨cells, hstate⟩, rfl⟩
    · cases h
  · cases h

/-- What a data group writes are the cells of its rows. -/
theorem Indexed.written_of_lays {out : List Cell} (h : s.Indexed) (hno : ¬ s.Failed) (hlays : s.Lays id out) :
    s.Written id out := by
  refine ⟨hlays.1, fun d width hd hopens hwidth => ?_⟩
  obtain ⟨table, htable, hout⟩ := (hlays.2 d width hd hopens hwidth).resolve_left hno
  exact ⟨table.1, Line.holds_of_table htable hd hopens, (h.tables id table htable).cells ▸ hout⟩

theorem Indexed.after (h : s.Failed ∨ s.Indexed) (hs : s.Sound) (hfailed : s.Failed → s'.Failed)
    (hlines : LinesKept s s') (hsize : s.lines.size ≤ s'.lines.size) (hlater : Later s s')
    (hvalue : ∀ label id, (label, id) ∈ s.rowLabels → (s.line id).directive? ≠ some .enumeration →
      (s.symbols.label label).value ≠ none → (s'.symbols.label label).value = (s.symbols.label label).value)
    (htables : ∀ id table, (s'.line id).table? = some table →
      (s.line id).table? = some table ∨ s.Tabulated id table.1 table.2 ∨ s.Failed)
    (hgroups : ∀ g ∈ s'.symbols.groups, g ∈ s.symbols.groups ∨ s.Describes g ∨ s.Failed)
    (hjournal : s.journal ⊆ s'.journal)
    (hemitted : ∀ id out, .emitted id out ∈ s'.journal → .emitted id out ∈ s.journal ∨ s.Lays id out) :
    s'.Failed ∨ s'.Indexed := by
  by_cases hno : s.Failed
  · exact .inl (hfailed hno)
  have h := h.resolve_left hno
  refine .inr ⟨fun id table htable => ?_, fun g hg => ?_, fun id out hmem => ?_⟩
  · have htable : s.Tabulated id table.1 table.2 := (htables id table htable).elim (h.tables id table) (Or.resolve_right · hno)
    refine htable.after hs hlines hsize hlater fun label hmem => hvalue label id hmem fun henum => ?_
    obtain ⟨d, hd, hopens⟩ := htable.group
    cases henum.symm.trans hd
    cases hopens
  · exact ((hgroups g hg).elim (h.groups g) (Or.resolve_right · hno)).after hlines hsize
  · exact ((hemitted id out hmem).elim (h.written id out) (h.written_of_lays hno)).after hs hlines hsize hjournal

theorem Indexed.around (h : s.Failed ∨ s.Indexed) (hs : s.Sound) (hlines : s'.lines = s.lines)
    (hsymbols : s'.symbols = s.symbols) (hrows : s'.rowLabels = s.rowLabels) (hdiagnostics : s'.diagnostics = s.diagnostics)
    (hjournal : s'.journal = s.journal) : s'.Failed ∨ s'.Indexed := by
  refine Indexed.after h hs (failed_of_diagnostics hdiagnostics).mpr (.of_lines hlines) (Nat.le_of_eq (by rw [hlines]))
    (RowGrowth.of_eq (by rw [hsymbols]) hrows).later (fun _ _ _ _ _ => by rw [hsymbols]) (fun _ _ htable => .inl ?_)
    (fun _ hg => .inl (hsymbols ▸ hg)) (fun _ hmem => hjournal ▸ hmem) fun _ _ hmem => .inl (hjournal ▸ hmem)
  rw [← htable, line, line, hlines]

theorem groups_setLabelValue (s : Assembly) (label : LabelId) (value : Option Value) :
    (s.setLabelValue label value).symbols.groups = s.symbols.groups := by
  obtain ⟨progress, heq⟩ := setLabelValue_eq s label value
  rw [heq]
  exact (setValue_spec s.symbols label value).2.2

theorem Change.groups (h : Change may s s') (hs : s.Sound) :
    ∀ g ∈ s'.symbols.groups, g ∈ s.symbols.groups ∨ s.Describes g ∨ s.Failed := by
  have hsame : s'.symbols.groups = s.symbols.groups → ∀ g ∈ s'.symbols.groups, g ∈ s.symbols.groups ∨ s.Describes g ∨ s.Failed :=
    fun heq g hg => .inl (heq ▸ hg)
  cases h with
  | around _ hsymbols => exact hsame (by rw [hsymbols])
  | report | mark | modify | name | push => exact hsame rfl
  | define _ hcreate => exact hsame (SymbolTable.identity_createLabel hs.freeLabels hcreate).2.2
  | assign label value => exact hsame (groups_setLabelValue s label value)
  | document label doc => exact hsame (keeps_setDoc s label doc).groups
  | register _ _ _ _ _ hgroups => exact hgroups
  | addScope => exact hsame (by rw [SymbolTable.addScope_of_free hs.freeScopes])

theorem Change.indexed (h : Change may s s') (hs : s.Sound) (hindexed : s.Failed ∨ s.Indexed) :
    s'.Failed ∨ s'.Indexed := by
  have hlater := h.later hs
  refine Indexed.after hindexed hs h.failed (h.linesKept hs) h.size_le hlater (fun label id hmem _ hvalue => ?_)
    (fun id table htable => ?_) (h.groups hs) (fun _ hmem => journal_change h ▸ hmem)
    fun _ _ hmem => .inl (journal_change h ▸ hmem)
  · exact h.value_row hs (hlater.kept hmem) fun hawaits => hvalue hawaits.1
  · exact (h.declares_or_keeps hs id).symm.imp (fun h => h.table table htable) fun h => h.2 table htable

theorem Changes.indexed (h : Changes may s s') (hs : s.Sound) (hindexed : s.Failed ∨ s.Indexed) :
    s'.Failed ∨ s'.Indexed := by
  induction h with
  | refl => exact hindexed
  | tail hrun hstep ih => exact hstep.indexed (Changes.sound hrun hs) ih

/-- A place in a list that has got one more element was there before, or is the last one. -/
theorem append_singleton_eq {α : Type} {xs before after : List α} {x y : α} : xs ++ [x] = before ++ y :: after ↔
      (∃ after', xs = before ++ y :: after' ∧ after = after' ++ [x]) ∨ xs = before ∧ x = y ∧ after = [] := by
  rcases List.eq_nil_or_concat' after with rfl | ⟨after', z, rfl⟩
  · simp
  rw [← List.cons_append, ← List.append_assoc, List.append_singleton_inj]
  constructor
  · rintro ⟨rfl, rfl⟩
    exact .inl ⟨after', rfl, rfl⟩
  · rintro (⟨rest, rfl, heq⟩ | ⟨-, -, heq⟩)
    · obtain ⟨rfl, rfl⟩ := List.append_singleton_inj.mp heq
      exact ⟨rfl, rfl⟩
    · simp at heq

theorem standsAt_snoc {rows : List Token} {row : Token} :
    StandsAt (rows ++ [row]) token element ↔ StandsAt rows token element ∨
      (splitRow row).1 = some token ∧ element = (rows.flatMap rowCells).length ∨
      isPlainName token.text = true ∧
        ∃ i, (rowCells row)[i]? = some token ∧ element = (rows.flatMap rowCells).length + i := by
  have hcell : ((rows ++ [row]).flatMap rowCells)[element]? = some token ↔
      (rows.flatMap rowCells)[element]? = some token ∨
        ∃ i, (rowCells row)[i]? = some token ∧ element = (rows.flatMap rowCells).length + i := by
    rw [List.flatMap_append, List.flatMap_singleton]
    constructor
    · intro h
      rcases Nat.lt_or_ge element (rows.flatMap rowCells).length with hlt | hge
      · exact .inl (List.getElem?_append_left hlt ▸ h)
      · exact .inr ⟨_, List.getElem?_append_right hge ▸ h, (Nat.add_sub_cancel' hge).symm⟩
    · rintro (h | ⟨i, h, rfl⟩)
      · rw [List.getElem?_append_left (List.getElem?_eq_some_iff.mp h).1]
        exact h
      · rw [List.getElem?_append_right (Nat.le_add_right _ _), Nat.add_sub_cancel_left]
        exact h
  unfold StandsAt
  rw [hcell]
  constructor
  · rintro (⟨hold | hnew, hplain⟩ | ⟨before, r, after, heq, hname, rfl⟩)
    · exact .inl (.inl ⟨hold, hplain⟩)
    · exact .inr (.inr ⟨hplain, hnew⟩)
    · rcases append_singleton_eq.mp heq with ⟨after', rfl, -⟩ | ⟨rfl, rfl, -⟩
      · exact .inl (.inr ⟨before, r, after', rfl, hname, rfl⟩)
      · exact .inr (.inl ⟨hname, rfl⟩)
  · rintro ((⟨hold, hplain⟩ | ⟨before, r, after, rfl, hname, rfl⟩) | ⟨hname, rfl⟩ | ⟨hplain, hnew⟩)
    · exact .inl ⟨.inl hold, hplain⟩
    · exact .inr ⟨before, r, after ++ [row], by simp, hname, rfl⟩
    · exact .inr ⟨rows, row, [], rfl, hname, rfl⟩
    · exact .inl ⟨.inr hnew, hplain⟩

/-- Whether rows have been declared: their cells are those of a data group, and its index says where names
stand in them. -/
structure Built (s : Assembly) (id : LineId) (rows : List LineId) (b : GroupBuilder) : Prop where
  owner : b.group.owner = (s.line id).groupName?.getD ""
  source : b.group.source = (s.line id).origin.source
  table : s.Tabulated id rows (b.cells.reverse.map fun c => c.token)
  index : ∀ name token element, b.group.Records name token element ↔
    token.text = name ∧ StandsAt (s.texts rows) token element

theorem Built.length (h : s.Built id rows b) : b.cells.length = ((s.texts rows).flatMap rowCells).length := by
  rw [← h.table.cells, List.length_map, List.length_reverse]

theorem Built.after (h : s.Built id rows b) (hrun : Changes may s s') (hs : s.Sound) : s'.Built id rows b := by
  have hkept := (hrun.linesKept hs).line id h.table.id_lt
  obtain ⟨d, hd, -⟩ := h.table.group
  exact ⟨(hkept.groupName hd).symm ▸ h.owner, hkept.origin.symm ▸ h.source, hrun.tabulated hs h.table,
    (hrun.linesKept hs).texts h.table.made ▸ h.index⟩

theorem Built.snoc {name : Option Token} {rest : Token} (h : s.Built id rows b) (hrow : row < s.lines.size)
    (hsplit : splitRow (s.line row).origin = (name, rest))
    (hgroup : b'.group.owner = b.group.owner ∧ b'.group.source = b.group.source)
    (hlabel : ∀ token, name = some token → ∃ label, (label, id) ∈ s.rowLabels ∧
      (s.symbols.label label).token = { token with text := rowLabel (s.line id).groupName? token.text } ∧
      (s.symbols.label label).value = some (.ofWord (Int64.ofNat b.cells.length)))
    (hcells : b'.cells.map (fun c => c.token) = (rest.splitTopLevel ',').reverse ++ b.cells.map fun c => c.token)
    (hindex : ∀ n token element, b'.group.Records n token element ↔ b.group.Records n token element ∨
      token.text = n ∧ (name = some token ∧ element = b.cells.length ∨ isPlainName token.text = true ∧
        ∃ i, (rest.splitTopLevel ',')[i]? = some token ∧ element = b.cells.length + i)) :
    s.Built id (rows ++ [row]) b' := by
  have htexts : s.texts (rows ++ [row]) = s.texts rows ++ [(s.line row).origin] := List.map_append
  have hname : (splitRow (s.line row).origin).1 = name := congrArg Prod.fst hsplit
  have hrest : rowCells (s.line row).origin = rest.splitTopLevel ',' := by rw [rowCells, hsplit]
  refine ⟨hgroup.1.trans h.owner, hgroup.2.trans h.source,
    ⟨h.table.group, fun r hr => ?_, ?_, fun before r after token heq htoken => ?_⟩, fun n token element => ?_⟩
  · rcases List.mem_append.mp hr with hold | hnew
    · exact h.table.made r hold
    · exact List.mem_singleton.mp hnew ▸ hrow
  · rw [htexts, List.flatMap_append, ← h.table.cells, List.flatMap_singleton, hrest, List.map_reverse, hcells,
      List.reverse_append, List.reverse_reverse, List.map_reverse]
  · rw [htexts] at heq
    rcases append_singleton_eq.mp heq with ⟨after', hrows, -⟩ | ⟨rfl, rfl, -⟩
    · exact h.table.labels before r after' token hrows htoken
    · exact h.length ▸ hlabel token (hname.symm.trans htoken)
  · rw [hindex, h.index, htexts, standsAt_snoc, hname, hrest, ← h.length, ← and_or_left]

/-! ## Declaring rows -/

theorem changes_addCells {origin : Token} : ∀ (tokens : List Token) {s : Assembly} {b : GroupBuilder} {element : Nat},
      Changes may s (s.addCells id origin b element tokens).2
  | [], s, _, _ => .refl
  | token :: tokens, s, b, element => by
    unfold Assembly.addCells
    split
    · exact (changes_fail s id _ _).trans (changes_addCells tokens)
    · exact changes_addCells tokens

theorem addCells_spec {origin : Token} (tokens : List Token) {b : GroupBuilder} {first : Nat} :
    let r := s.addCells id origin b first tokens
    r.2.Failed ∨ r.2 = s ∧ (r.1.group.owner = b.group.owner ∧ r.1.group.source = b.group.source) ∧
      r.1.cells.map (fun c => c.token) = tokens.reverse ++ b.cells.map (fun c => c.token) ∧
      ∀ name token element, r.1.group.Records name token element ↔ b.group.Records name token element ∨
        token.text = name ∧ isPlainName token.text = true ∧ ∃ i, tokens[i]? = some token ∧ element = first + i := by
  induction tokens generalizing s b first with
  | nil => simp [addCells]
  | cons cell tokens ih =>
    unfold addCells
    split
    · exact .inl (Changes.failed (changes_addCells tokens : Changes .all _ _) (failed_fail s id _ _))
    refine ih.imp_right fun ⟨hsame, hgroup, hcells, hindex⟩ =>
      ⟨hsame, ?_, by simp [hcells], fun name token element => ?_⟩
    · rw [hgroup.1, hgroup.2]
      split <;> exact ⟨rfl, rfl⟩
    have hplace : (∃ i, (cell :: tokens)[i]? = some token ∧ element = first + i) ↔
        (cell = token ∧ element = first) ∨ ∃ i, tokens[i]? = some token ∧ element = first + 1 + i := by
      rw [← Nat.or_exists_add_one]
      simp [Nat.add_assoc, Nat.add_comm 1]
    rw [hindex, hplace, and_or_left, and_or_left, ← or_assoc]
    refine or_congr_left ?_
    split
    · rename_i hplain
      rw [DataGroup.records_record]
      refine or_congr_right ⟨fun ⟨hn, ht, he⟩ => ?_, fun ⟨hn, _, ht, he⟩ => ⟨ht ▸ hn.symm, ht.symm, he⟩⟩
      subst ht
      exact ⟨hn.symm, hplain, rfl, he⟩
    · rename_i hplain
      exact ⟨.inl, fun h => h.resolve_right fun ⟨_, hp, ht, _⟩ => hplain (ht ▸ hp)⟩

theorem defineRow_spec {t : Assembly} {scope : ScopeId} {allow : Bool} (hs : s.Sound)
    (hgroup : ∃ d, (s.line id).directive? = some d ∧ d.opens .endGroup = true) (hid : id < s.lines.size)
    (hroom : s.Room scope) (hdef : s.defineLabel id token scope .defined allow = (some label, t)) (doc : Option String)
    (n : Int64) :
    let r := (t.setDoc label doc).setLabelValue label (some (.ofWord n))
    Changes may s r ∧ (label, id) ∈ r.rowLabels ∧ (r.symbols.label label).token = token ∧
      (r.symbols.label label).value = some (.ofWord n) := by
  have hrun : Changes may s t := changes_defineLabel hdef hroom nofun
  obtain ⟨d, hd, hopens⟩ := hgroup
  have hhas : (s.line id).hasRows = true := by
    rw [Line.hasRows, hd]
    simp [hopens]
  obtain ⟨-, hlt, hidentity, hnone, hrows⟩ := defineLabel_eq_some hs.freeLabels hdef
  rw [if_pos ⟨rfl, hhas⟩] at hrows
  have hmem : (label, id) ∈ t.rowLabels := hrows ▸ List.mem_cons_self
  have hdoc := keeps_setDoc t label doc
  have hlt' := hdoc.labels.symm ▸ hlt
  have hawaits : (t.setDoc label doc).Awaits label :=
    ⟨(hdoc.value label).trans hnone, id, d, hmem, ((hrun.linesKept hs).directive id hid).trans hd, hopens⟩
  have hkept := (later_setLabelValue (t.setDoc label doc) label (some (.ofWord n))).identity label hlt'
  exact ⟨hrun.trans (.tail (.single (.document label doc)) (.assign label _ nofun (.inr hawaits))),
    (rowLabels_setLabelValue _ _ _).symm ▸ hmem, congrArg Prod.snd (hkept.trans ((hdoc.identity label).trans hidentity)),
    value_setLabelValue n hlt'⟩

theorem declareRow_spec {owner : Option String} {scope : ScopeId} (hs : s.Sound)
    (hgroup : ∃ d, (s.line id).directive? = some d ∧ d.opens .endGroup = true) (hid : id < s.lines.size)
    (hroom : s.Room scope) (howner : owner = (s.line id).groupName?) :
    let r := s.declareRow id owner scope b row
    Changes may s r.2 ∧ ∀ rows, row < s.lines.size → s.Built id rows b → r.2.Failed ∨ r.2.Built id (rows ++ [row]) r.1 := by
  rcases hsplit : splitRow (s.line row).origin with ⟨name, rest⟩
  -- However the row is named, its cells come last.
  have hcells : ∀ {t : Assembly} {b' : GroupBuilder}, Changes may s t → b'.cells = b.cells →
      (b'.group.owner = b.group.owner ∧ b'.group.source = b.group.source) →
      (∀ n token element, b'.group.Records n token element ↔ b.group.Records n token element ∨
        token.text = n ∧ name = some token ∧ element = b.cells.length) →
      (t.Failed ∨ ∀ token, name = some token → ∃ label, (label, id) ∈ t.rowLabels ∧
        (t.symbols.label label).token = { token with text := rowLabel owner token.text } ∧
        (t.symbols.label label).value = some (.ofWord (Int64.ofNat b.cells.length))) →
      let r := t.addCells id (s.line row).origin b' b.cells.length (rest.splitTopLevel ',')
      Changes may s r.2 ∧ ∀ rows, row < s.lines.size → s.Built id rows b → r.2.Failed ∨ r.2.Built id (rows ++ [row]) r.1 := by
    intro t b' hrun hcells hhead hrecords hlabel
    refine ⟨hrun.trans (changes_addCells _), fun rows hrow hbuilt => ?_⟩
    rcases hlabel with hfailed | hlabel
    · exact .inl (Changes.failed (changes_addCells _ : Changes may _ _) hfailed)
    refine (addCells_spec _).imp_right fun ⟨hsame, hgroup', htokens, hindex⟩ => ?_
    rw [hsame]
    have horigin : splitRow (t.line row).origin = (name, rest) :=
      (congrArg splitRow ((hrun.linesKept hs).line row hrow).origin).trans hsplit
    obtain ⟨d, hd, -⟩ := hgroup
    have hname : owner = (t.line id).groupName? := howner.trans (((hrun.linesKept hs).line id hid).groupName hd).symm
    refine (hbuilt.after hrun hs).snoc (Nat.lt_of_lt_of_le hrow hrun.size_le) horigin
      ⟨hgroup'.1.trans hhead.1, hgroup'.2.trans hhead.2⟩ (hname ▸ hlabel) (hcells ▸ htokens) fun n token element => ?_
    rw [hindex, hrecords, or_assoc, ← and_or_left]
  have hmark : Changes may s (s.mark row .finished) :=
    .single (.mark row .finished fun h => by rcases h with h | h <;> cases h)
  unfold declareRow
  simp only [hsplit]
  cases name with
  | none => exact hcells hmark rfl ⟨rfl, rfl⟩ (fun _ _ _ => by simp) (.inr nofun)
  | some name =>
    have hrecords : ∀ n token element, (b.group.record name.text name b.cells.length).Records n token element ↔
        b.group.Records n token element ∨ token.text = n ∧ some name = some token ∧ element = b.cells.length := by
      intro n token element
      rw [DataGroup.records_record, Option.some.injEq]
      refine or_congr_right ⟨?_, ?_⟩
      · rintro ⟨rfl, rfl, rfl⟩
        exact ⟨rfl, rfl, rfl⟩
      · rintro ⟨rfl, rfl, rfl⟩
        exact ⟨rfl, rfl, rfl⟩
    have hgroup' := (hmark.linesKept hs).directive id hid ▸ hgroup
    have hid' := Nat.lt_of_lt_of_le hid hmark.size_le
    simp only
    split
    · rename_i label t hdef
      obtain ⟨hrun, hmem, htoken, hvalue⟩ := defineRow_spec (hmark.sound hs) hgroup' hid' (hmark.room hs hroom) hdef
        (s.line row).comment (Int64.ofNat b.cells.length)
      refine hcells (hmark.trans hrun) rfl ⟨rfl, rfl⟩ hrecords (.inr fun token heq => ⟨label, hmem, ?_, hvalue⟩)
      cases heq
      exact htoken
    · rename_i t hdef
      have hrun : Changes may (s.mark row .finished) t := changes_defineLabel hdef (hmark.room hs hroom) nofun
      exact hcells (hmark.trans hrun) rfl ⟨rfl, rfl⟩ hrecords (.inl (failed_defineLabel hdef))

theorem declareRows_spec {owner : Option String} {scope : ScopeId} (rows : List LineId) (hs : s.Sound)
    (hgroup : ∃ d, (s.line id).directive? = some d ∧ d.opens .endGroup = true) (hid : id < s.lines.size)
    (hroom : s.Room scope) (howner : owner = (s.line id).groupName?) :
    let r := s.declareRows id owner scope b rows
    Changes may s r.2 ∧ ∀ before, (∀ row ∈ rows, row < s.lines.size) → s.Failed ∨ s.Built id before b →
      r.2.Failed ∨ r.2.Built id (before ++ rows) r.1 := by
  induction rows generalizing s b with
  | nil => exact ⟨.refl, fun before _ h => by rwa [List.append_nil]⟩
  | cons row rows ih =>
    obtain ⟨hfirst, hbuilt⟩ : let r := s.declareRow id owner scope b row
        Changes may s r.2 ∧ ∀ rows, row < s.lines.size → s.Built id rows b →
          r.2.Failed ∨ r.2.Built id (rows ++ [row]) r.1 := declareRow_spec hs hgroup hid hroom howner
    unfold declareRows
    generalize s.declareRow id owner scope b row = first at hfirst hbuilt ⊢
    have hkept := (hfirst.linesKept hs).line id hid
    have howner' : owner = (first.2.line id).groupName? := by
      obtain ⟨d, hd, -⟩ := hgroup
      exact howner.trans (hkept.groupName hd).symm
    obtain ⟨hrest, hdone⟩ := @ih first.2 first.1 (hfirst.sound hs) (hkept.directive ▸ hgroup)
      (Nat.lt_of_lt_of_le hid hfirst.size_le) (hfirst.room hs hroom) howner'
    refine ⟨hfirst.trans hrest, fun before hmade h => ?_⟩
    rw [List.append_cons]
    refine hdone _ (fun r hr => Nat.lt_of_lt_of_le (hmade r (List.mem_cons_of_mem row hr)) hfirst.size_le) ?_
    exact h.elim (fun h => .inl (hfirst.failed h)) (hbuilt before (hmade row List.mem_cons_self))

/-! ## Declaring a data group -/

theorem built_nil (hgroup : ∃ d, (s.line id).directive? = some d ∧ d.opens .endGroup = true) :
    s.Built id [] ⟨.empty ((s.line id).groupName?.getD "") (s.line id).origin.source, []⟩ := by
  refine ⟨rfl, rfl, ⟨hgroup, nofun, rfl, fun before row after name h => ?_⟩, fun name token element => ⟨?_, ?_⟩⟩
  · cases List.append_ne_nil_of_right_ne_nil before (List.cons_ne_nil row after) h.symm
  · rintro ⟨places, hmem, -⟩
    cases hmem
  · rintro ⟨-, ⟨h, -⟩ | ⟨before, row, after, h, -⟩⟩
    · cases h
    · cases List.append_ne_nil_of_right_ne_nil before (List.cons_ne_nil row after) h.symm

theorem mem_addGroup {symbols : SymbolTable} {g g' : DataGroup} (h : g' ∈ (symbols.addGroup g).groups) :
    g' ∈ symbols.groups ∨ g' = g := by
  unfold SymbolTable.addGroup at h
  split at h
  · obtain ⟨old, hold, heq⟩ := List.mem_map.mp h
    split at heq
    · exact .inr heq.symm
    · exact .inl (heq ▸ hold)
  · exact (List.mem_append.mp h).imp_right List.mem_singleton.mp

/-- A data group gets its cells, and then its index says where names stand in it. -/
theorem Built.describes (h : s.Built id rows b) {part : Line.CommandPart} (hkind : (s.line id).kind = .command part)
    (hopens : part.directive.opens .endGroup = true) (hrows : part.body.getD [] = rows)
    (hnamed : (s.line id).groupName?.isSome = true) :
    (s.setDirectiveState id (.group b.cells.reverse)).Describes b.group := by
  have hline : ∀ row, ((s.setDirectiveState id (.group b.cells.reverse)).line row).origin = (s.line row).origin := by
    intro row
    rw [setDirectiveState, line_modifyLine]
    split
    · rename_i hrow
      rw [hrow.1, kind_modifyCommand hkind]
    · rfl
  have hself : (s.setDirectiveState id (.group b.cells.reverse)).line id =
      { s.line id with kind := .command { part with state := .group b.cells.reverse } } := by
    rw [setDirectiveState, line_modifyLine, if_pos ⟨rfl, h.table.id_lt⟩, kind_modifyCommand hkind]
  refine ⟨id, rows, ⟨{ part with state := .group b.cells.reverse }, by rw [hself], hopens, ⟨_, rfl⟩, hrows⟩,
    fun row hrow => ?_, ?_, ?_, ?_⟩
  · exact Nat.lt_of_lt_of_eq (h.table.made row hrow) (size_modifyLine s id _).symm
  · obtain ⟨name, hname⟩ := Option.isSome_iff_exists.mp hnamed
    rw [hself, h.owner, hname]
    exact hname
  · rw [hline, h.source]
  · rw [texts, List.map_congr_left fun row _ => hline row]
    exact h.index

theorem Runs.declareGroup {part : Line.CommandPart} (hopen : may.declare id) (hkind : (s.line id).kind = .command part)
    (hopens : part.directive.opens .endGroup = true) : Runs may s (s.declareGroup id part) := by
  intro hs hr
  have hgroup : ∃ d, (s.line id).directive? = some d ∧ d.opens .endGroup = true := ⟨_, directive_of_kind hkind, hopens⟩
  have hid := (built_nil hgroup).table.id_lt
  have hmade : ∀ row ∈ part.body.getD [], row < s.lines.size := by
    have hrows := hs.rows id
    rwa [Line.rows, hkind] at hrows
  unfold Assembly.declareGroup
  simp only
  generalize howner : ((s.line id).label.filter fun label => NameScope.ofName? label.text != some .nameless).map
    (fun label => label.text) = owner
  have howner : owner = (s.line id).groupName? := howner.symm
  generalize hstart : GroupBuilder.mk (.empty (owner.getD "") (s.line id).origin.source) [] = start
  have hspec : ∀ may', let r := s.declareRows id owner (s.line id).scope start (part.body.getD [])
      Changes may' s r.2 ∧ (r.2.Failed ∨ r.2.Built id (part.body.getD []) r.1) := by
    intro may'
    refine (declareRows_spec _ hs hgroup hid (hr.room id (may.sub id hopen) hid) howner).imp_right fun h => ?_
    exact h [] hmade (.inr (hstart ▸ howner ▸ built_nil hgroup))
  generalize s.declareRows id owner (s.line id).scope start (part.body.getD []) = r at hspec
  obtain ⟨hrun, hbuilt⟩ := hspec may
  -- Declaring rows changes no line but for its state, so the block is still that of the line.
  have hkind' : (r.2.line id).kind = .command part := ((hspec .still).1.kind_eq hs hid not_false).trans hkind
  have hother : part.directive ≠ .hexBytes := fun h => by
    rw [h] at hopens
    cases hopens
  have hset : Change may r.2 (r.2.setDirectiveState id (.group r.1.cells.reverse)) :=
    change_setGroup (may.sub id hopen) hkind' (.inl ⟨hopen, hother, (hbuilt.imp_right fun h => h.table).symm⟩)
  refine (hrun.trans (.single hset)).trans ?_
  split
  · rename_i hnamed
    have hnamed : (r.2.line id).groupName?.isSome = true := by
      rw [((hrun.linesKept hs).line id hid).groupName (directive_of_kind hkind), ← howner]
      exact hnamed
    refine .single (.register (s := r.2.setDirectiveState id _) (r.2.symbols.addGroup r.1.group) ?_ ?_ ?_ ?_ fun g hg => ?_)
    rotate_left 4
    · refine (mem_addGroup hg).imp_right fun heq => ?_
      rw [heq]
      exact hbuilt.symm.imp (fun h => h.describes hkind' hopens rfl hnamed) hset.failed
    all_goals
      unfold SymbolTable.addGroup
      split <;> rfl
  · exact .refl

end Assembly

end CrossAssembler
