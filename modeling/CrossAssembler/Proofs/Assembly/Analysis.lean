import CrossAssembler.Proofs.Assembly.Declaration

/-!
# Analysing lines is a run

* `Runs.resolve` — settling what lines are changes only these lines, those below them and new ones.
* `Runs.parse` — the same for the reading of operands and arguments.

Principal result: `Runs.analyze` — lines can be analysed at any time, also within a pass.
-/

namespace CrossAssembler.Assembly

variable {s s' : Assembly} {may : Permit}
variable {f : Assembly → List Item → Assembly} {id : LineId} {scope : ScopeId} {part : Line.CommandPart}

/-- What is done with items is a run, if they may be changed and new lines declared. -/
def RunsSettling (f : Assembly → List Item → Assembly) : Prop :=
  ∀ (may : Permit) (s : Assembly) (items : List Item), may.Allows s.lines.size →
    (∀ item ∈ items, item.Proper fun id => may.change id ∧ id < s.lines.size) → Runs may s (f s items)

/-- What is done with items is a run, if they may be changed. -/
def RunsReading (f : Assembly → List Item → Assembly) : Prop :=
  ∀ (may : Permit) (s : Assembly) (items : List Item),
    (∀ item ∈ items, item.Proper fun id => may.change id ∧ id < s.lines.size) → Runs may s (f s items)

theorem RunsSettling.declaring (h : RunsSettling f) :
    RunsDeclaring f := fun may s items hnew _ hitems => h may s items hnew hitems

theorem RunsReading.declaring (h : RunsReading f) :
    RunsDeclaring f := fun may s items _ _ hitems => h may s items hitems

theorem RunsDeclaring.comp {g : Assembly → List Item → Assembly} (hf : RunsDeclaring f)
    (hg : RunsDeclaring g) : RunsDeclaring fun s items => g (f s items) items :=
  fun may s items hnew hopen hitems => (hf may s items hnew hopen hitems).andThen fun hle =>
    hg may _ items (allows_mono hnew hle) hopen fun item hitem => (hitems item hitem).mono fun _ hid =>
      ⟨hid.1, Nat.lt_of_lt_of_le hid.2 hle⟩

/-- Declares lines and settles what they are, as deep as they may be nested. -/
def settleWithin (bound : Budget) (s : Assembly) (items : List Item) : Assembly :=
  resolveWithin bound (declareWithin bound s items) items

/-! ## Macro calls -/

namespace Runs

theorem defineParameters {id : LineId} {scope : ScopeId} {token : Token} :
    ∀ (names : List String) {s : Assembly}, s.Room scope → Runs may s (s.defineParameters id scope token names).2
  | [], s, _ => refl s
  | name :: names, s, hroom => by
    unfold Assembly.defineParameters
    split
    · rename_i t hdef
      exact ofDefine hdef hroom nofun
    rename_i label t hdef
    have hrest : Runs may s (t.defineParameters id scope token names).2 :=
      (ofDefine hdef hroom nofun).seq fun hs hrun => defineParameters names (hrun.room hs hroom)
    split
    · rename_i u heq
      exact hrest.result heq
    · rename_i labels u heq
      exact hrest.result heq

end Runs

theorem lines_defineParameters {token : Token} : ∀ {names : List String} {s s' : Assembly} {labels : List LabelId},
      s.defineParameters id scope token names = (some labels, s') → s'.lines = s.lines
  | [], _, _, _, h => by
    cases h
    rfl
  | name :: names, s, s', labels, h => by
    unfold defineParameters at h
    split at h
    · cases h
    rename_i label t hdef
    split at h
    · cases h
    · rename_i rest u heq
      cases h
      rw [lines_defineParameters heq, lines_defineLabel hdef]

theorem free_defineParameters {token : Token} :
    ∀ {names : List String} {s s' : Assembly} {labels : List LabelId}, s.Sound → s.Room scope →
      s.defineParameters id scope token names = (some labels, s') → ∀ label ∈ labels, s'.Free label
  | [], _, _, _, _, _, h => by
    cases h
    exact nofun
  | name :: names, s, s', labels, hs, hroom, h => by
    unfold defineParameters at h
    split at h
    · cases h
    rename_i label t hdef
    have hfirst : Changes (.undeclared s.lines.size) s t :=
      Runs.ofDefine hdef hroom nofun hs (region_undeclared s)
    have ht := hfirst.sound hs
    have hrest : Runs (.undeclared t.lines.size) t (t.defineParameters id scope token names).2 :=
      .defineParameters names (hfirst.room hs hroom)
    split at h
    · cases h
    rename_i rest u heq
    cases h
    intro other hother
    rcases List.mem_cons.mp hother with rfl | hother
    · exact (free_defineLabel hs hdef (.inl nofun)).later
        (Changes.later (hrest.result heq ht (region_undeclared t)) ht)
    · exact free_defineParameters ht (hfirst.room hs hroom) heq other hother

theorem instantiate_eq (settle : Assembly → List Item → Assembly) (body : List LineId)
    (hs : s.Sound) (hscope : scope < s.symbols.scopes.size) (hroom : s.Room scope) :
    ∃ t items, Changes (.undeclared s.lines.size) s t ∧ NewItems s t items ∧
      instantiate settle s body scope = (items, (settle t items).closeCall) := by
  have hcopied : Added (.undeclared s.lines.size) s { s with lines := (s.lines.instantiate body scope).2 }
      (s.lines.instantiate body scope).1 := added_instantiate body hs hscope hroom
  have hadded : Added (.undeclared s.lines.size) s
      { s with lines := (s.lines.instantiate body scope).2 }.openCall (s.lines.instantiate body scope).1 :=
    hcopied.tail (.nest ..) rfl
  obtain ⟨harrange, hitems⟩ := hadded.arrange hs
  exact ⟨_, _, harrange, hitems, rfl⟩

namespace Runs

theorem setExpansion {id : LineId} {expansion : Line.Expansion} (hown : may.change id)
    (hnone : (s.line id).inner = []) (hfree : ∀ label ∈ expansion.parameters, s.Free label)
    (h : ∀ item ∈ expansion.items, item.Proper fun id => may.attach id ∧ id < s.lines.size)
    (hgrows : s.Grows id [expansion.items]) :
    Runs may s (s.modifyLine id fun l =>
      match l.kind with
      | .call part => { l with kind := .call { part with expansion := some expansion } }
      | _ => l) := by
  refine single (change_modifyOther hown ?_)
  split
  · rename_i part hkind
    refine .inr ⟨rfl, ?_, ?_, rfl, fun hc => ?_, fun h => ⟨h.1, fun e he => ?_⟩, fun items hitems => ?_,
      .inr hgrows, ?_⟩
    · rw [Line.isPlain, Line.isPlain, hkind]
    · rw [Line.directive?, Line.command?, hkind]
      rfl
    · unfold Line.Complete at hc ⊢
      rw [hkind] at hc
      exact .inl hc
    · cases he
      exact hfree
    · rw [List.mem_singleton.mp hitems]
      exact .inr h
    · rw [hnone]
      exact fun _ h => absurd h List.not_mem_nil
  · exact .inl rfl

end Runs

/-- A call fails, or gets the lines of a macro in a scope of its own. -/
theorem expand_cases (settle : Assembly → List Item → Assembly) (name : Token)
    (count : Nat) (hs : s.Sound) (hid : id < s.lines.size) :
    Changes (.undeclared s.lines.size) s (expand settle s id name count) ∨
      ∃ t items parameters, Changes (.undeclared s.lines.size) s t ∧ NewItems s t items ∧
        (∀ label ∈ parameters, t.Free label) ∧ expand settle s id name count = (settle t items).closeCall.modifyLine id fun l =>
          match l.kind with
          | .call part => { l with kind := .call { part with expansion := some ⟨parameters, items⟩ } }
          | _ => l := by
  unfold expand
  simp only
  split
  · exact .inl (changes_fail s id _ _)
  rename_i m _
  split
  · exact .inl (changes_fail s id _ _)
  split
  · exact .inl (changes_fail s id _ _)
  obtain ⟨hscope, hroom, hlt⟩ := (change_addScope hs .call
    (s.symbols.scope (s.line id).scope).source (hs.placed id hid) :
    Change (.undeclared s.lines.size) s _ ∧ _)
  generalize (s.symbols.addScope .call (s.line id).scope
    (s.symbols.scope (s.line id).scope).source).1 = scope at hroom hlt ⊢
  generalize (s.symbols.addScope .call (s.line id).scope
    (s.symbols.scope (s.line id).scope).source).2 = symbols at hscope hroom hlt ⊢
  have hs' := hscope.sound hs
  have hparameters : Runs (.undeclared s.lines.size) { s with symbols }
      (defineParameters { s with symbols } id scope m.token m.parameters).2 :=
    .defineParameters m.parameters hroom
  split
  · rename_i t heq
    exact .inl (((Runs.single hscope).trans (hparameters.result heq)) hs (region_undeclared s))
  rename_i parameters t heq
  have hdefined := hparameters.result heq hs' (hscope.region hs (region_undeclared s))
  have hsize : t.lines.size = s.lines.size := by
    rw [lines_defineParameters heq]
  obtain ⟨u, items, hcopy, hitems, heq'⟩ := instantiate_eq settle m.body
    (hdefined.sound hs') (Nat.lt_of_lt_of_le hlt (hdefined.scopes_le hs'))
    (hdefined.room hs' hroom)
  rw [heq']
  rw [hsize] at hcopy
  refine .inr ⟨u, items, parameters, .head hscope (hdefined.trans hcopy),
    ⟨hitems.distinct, ?_⟩, fun label hlabel => ?_, rfl⟩
  · rw [← hsize]
    exact hitems.proper
  · exact (free_defineParameters hs' hroom heq label hlabel).later (hcopy.later (hdefined.sound hs'))

namespace Runs

theorem expand {settle : Assembly → List Item → Assembly} {id : LineId} {name : Token} {count : Nat}
    (hown : may.change id) (hid : id < s.lines.size) (hnone : (s.line id).inner = [])
    (hnew : may.Allows s.lines.size) (hsettle : RunsDeclaring settle) :
    Runs may s (expand settle s id name count) := by
  refine of fun hs _ => ?_
  rcases expand_cases settle name count hs hid with h | ⟨t, items, parameters, hcopy, hitems, hfree, heq⟩
  · exact fun _ _ => h.declaring.widen hnew
  rw [heq]
  have hsettled := hsettle.changes hs hcopy hitems
  have hbetween : Changes (.between s.lines.size t.lines.size) t (settle t items).closeCall :=
    (hsettle.between hs hcopy hitems).tail (.nest ..)
  have hrun : Changes (.from s.lines.size) s (settle t items).closeCall :=
    (hcopy.declaring.trans hsettled).tail (.nest ..)
  have hwide : Runs may s (settle t items).closeCall := fun _ _ => hrun.widen hnew
  refine hwide.trans (setExpansion hown ?_ (fun label hlabel => ?_) (hitems.attach hnew hsettled.size_le)
    (hitems.grows hs hcopy hbetween hid))
  rotate_left
  · exact (hfree label hlabel).later (hbetween.later (hcopy.sound hs))
  -- the call itself is no new line
  have hkind := hrun.kind_eq hs hid (Nat.not_le_of_lt hid)
  unfold Line.inner at hnone ⊢
  rw [hkind]
  exact hnone

theorem settleKind {id : LineId} {label : Option Token} {kind : Line.Kind} (hown : may.change id)
    (hunknown : (s.line id).kind = .unknown)
    (hkind : kind = .label ∨ ∃ name arguments, kind = .call { name, arguments }) :
    Runs may s (s.modifyLine id fun l => { l with label, kind }) := by
  have hdirective : (s.line id).directive? = none := by
    rw [Line.directive?, Line.command?, hunknown]
    rfl
  have hplain : (s.line id).isPlain = true := by
    rw [Line.isPlain, hunknown]
  have hinner : (s.line id).inner = [] := by
    rw [Line.inner, hunknown]
  refine single (change_modifyOther hown (.inr ?_))
  rcases hkind with rfl | ⟨name, arguments, rfl⟩
  · refine ⟨rfl, hplain.symm, hdirective, rfl, fun _ => .inl trivial, fun h => ⟨h.1, trivial⟩,
      fun _ h => absurd h List.not_mem_nil,
      .inr (grows_nil s id), ?_⟩
    rw [hinner]
    exact fun _ h => absurd h List.not_mem_nil
  · refine ⟨rfl, hplain.symm, hdirective, rfl, fun _ => .inl List.not_mem_nil,
      fun h => ⟨h.1, fun _ he => absurd he (Option.not_mem_none _)⟩, fun _ h => absurd h List.not_mem_nil, .inr (grows_nil s id), ?_⟩
    rw [hinner]
    exact fun _ h => absurd h List.not_mem_nil

end Runs

/-- A line that was not known is settled by itself, or is a call. -/
theorem resolveUnknown_cases (settle : Assembly → List Item → Assembly)
    (hid : id < s.lines.size) (hunknown : (s.line id).kind = .unknown) :
    (∀ may : Permit, may.change id → Runs may s (resolveUnknown settle s id)) ∨
      ∃ t part name count, (∀ may : Permit, may.change id → Runs may s t) ∧
        (t.line id).kind = .call part ∧ part.expansion = none ∧
        resolveUnknown settle s id = expand settle t id name count := by
  have hsize : ∀ f, id < (s.modifyLine id f).lines.size := fun f => by
    rw [size_modifyLine]
    exact hid
  unfold resolveUnknown
  simp only
  split
  · rename_i word _
    generalize (s.line id).origin.slice word.start word.stop = name
    generalize ((s.line id).origin.sliceFrom word.stop).splitTopLevel ',' = arguments
    refine .inr ⟨_, { name, arguments }, name, arguments.length, fun may hown => ?_, ?_, rfl, rfl⟩
    · exact (Runs.settleKind hown hunknown (.inr ⟨_, _, rfl⟩)).trans (.defineLineLabel hown (hsize _))
    · rw [sameKinds_defineLineLabel _ id, line_modifyLine, if_pos ⟨rfl, hid⟩]
  · split
    · exact .inl fun may hown =>
        (Runs.settleKind hown hunknown (.inl rfl)).trans (.defineLineLabel hown (hsize _))
    · exact .inl fun _ _ => .fail s id _ _

namespace Runs

variable {id : LineId}

theorem resolveUnknown {settle : Assembly → List Item → Assembly} (hown : may.change id)
    (hid : id < s.lines.size) (hunknown : (s.line id).kind = .unknown)
    (hnew : may.Allows s.lines.size) (hsettle : RunsDeclaring settle) :
    Runs may s (resolveUnknown settle s id) := by
  rcases resolveUnknown_cases settle hid hunknown with h | h
  · exact h may hown
  obtain ⟨t, part, name, count, hrun, hkind, hnone, heq⟩ := h
  rw [heq]
  refine (hrun may hown).andThen fun hle => ?_
  refine expand hown (Nat.lt_of_lt_of_le hid hle) ?_ (allows_mono hnew hle) hsettle
  rw [Line.inner, hkind]
  simp only [hnone]
  rfl

theorem resolveLine {settle resolve : Assembly → List Item → Assembly}
    (hown : may.change id) (hid : id < s.lines.size) (hnew : may.Allows s.lines.size)
    (hsettle : RunsDeclaring settle) (hresolve : RunsSettling resolve) :
    Runs may s (resolveLine settle resolve s id) := by
  unfold Assembly.resolveLine
  simp only
  split
  · exact refl s
  split
  · rename_i hkind
    exact resolveUnknown hown hid hkind hnew hsettle
  · rename_i part hkind
    split
    · rename_i path items hstate
      have hbelow : items ∈ linesBelow (s.line id) := by
        rw [linesBelow_command hkind, hstate]
        exact List.mem_singleton_self items
      exact of fun hs hr => hresolve may s items hnew fun item hitem =>
        (hr.below id hown items hbelow item hitem).and (hs.below id items hbelow item hitem)
    · exact refl s
  · exact refl s

theorem resolveWithin : ∀ bound : Budget, RunsSettling (resolveWithin bound)
  | .spent, _, s, _, _, _ => refl s
  | .left calls files, may, s, items, hnew, hitems => by
    unfold Assembly.resolveWithin
    refine foldl (Nat.le_refl _) fun t hle item hitem => ?_
    have hid := (hitems item hitem).id
    split
    · exact refl t
    · exact resolveLine hid.1 (Nat.lt_of_lt_of_le hid.2 hle) (allows_mono hnew hle)
        ((declareWithin calls).comp (resolveWithin calls).declaring) (resolveWithin files)

theorem resolve : RunsSettling Assembly.resolve := resolveWithin .full

theorem settleWithin (bound : Budget) : RunsDeclaring (settleWithin bound) :=
  (declareWithin bound).comp (resolveWithin bound).declaring

/-! ## Operands and arguments -/

theorem parseSlices {operand : Token} :
    ∀ (slices : List (Nat × Nat)) (s : Assembly), Runs may s (s.parseSlices id operand slices).2
  | [], s => refl s
  | (start, stop) :: rest, s => by
    unfold Assembly.parseSlices
    simp only
    split
    · rename_i t heq
      exact (parseExpression s id _).result heq
    rename_i e t heq
    refine ((parseExpression s id _).result heq).trans ?_
    split
    · rename_i u heq
      exact (parseSlices rest t).result heq
    · rename_i es u heq
      exact (parseSlices rest t).result heq

end Runs

theorem change_modifyInstruction {f : Line.InstructionPart → Line.InstructionPart} (hown : may.change id) :
    Change may s (s.modifyLine id fun l =>
      match l.kind with
      | .instruction part => { l with kind := .instruction (f part) }
      | _ => l) := by
  refine change_modifyOther hown ?_
  split
  · rename_i part hkind
    refine .inr ⟨rfl, ?_, ?_, rfl, fun _ => .inl trivial, fun h => ⟨h.1, trivial⟩,
      fun _ h => absurd h List.not_mem_nil, .inr (grows_nil s id), ?_⟩
    · rw [Line.isPlain, Line.isPlain, hkind]
    · rw [Line.directive?, Line.command?, hkind]
      rfl
    · rw [Line.inner, hkind]
      exact fun _ h => absurd h List.not_mem_nil
  · exact .inl rfl

namespace Runs

theorem parseInstruction {id : LineId} {part : Line.InstructionPart} (hown : may.change id) :
    Runs may s (s.parseInstruction id part) := by
  unfold Assembly.parseInstruction
  split
  · exact fail s id _ _
  rename_i form slices _
  split
  · rename_i t heq
    exact (parseSlices slices s).result heq
  · rename_i expressions t heq
    exact ((parseSlices slices s).result heq).trans (single (change_modifyInstruction hown))

theorem parseVariable {id : LineId} {part : Line.VariablePart} (hown : may.change id) :
    Runs may s (s.parseVariable id part) :=
  (parseExpression s id part.expression).trans (modifyVariable hown fun _ => .inl rfl)

end Runs

theorem changes_parseEnumRows : ∀ (rows : List EnumRow) (s : Assembly), Changes may s (s.parseEnumRows id rows).2
  | [], _ => .refl
  | row :: rows, s => by
    unfold Assembly.parseEnumRows
    refine Relation.ReflTransGen.trans ?_ (changes_parseEnumRows rows _)
    split
    · exact changes_parseExpression s id _
    · exact .refl

theorem changes_parseCells : ∀ (cells : List GroupCell) (s : Assembly), Changes may s (s.parseCells id cells).2
  | [], _ => .refl
  | cell :: cells, s => by
    unfold parseCells
    exact (changes_parseExpression s id cell.token).trans (changes_parseCells cells _)

theorem parseEnumRows_spec : ∀ (rows : List EnumRow) (s : Assembly), SameKinds s (s.parseEnumRows id rows).2 ∧
      (s.parseEnumRows id rows).1.map (fun r => r.label) = rows.map (fun r => r.label) ∧
      ((∀ r ∈ (s.parseEnumRows id rows).1, r.length ≠ none → r.expression ≠ none) ∨
        (s.parseEnumRows id rows).2.Failed)
  | [], _ => ⟨fun _ => rfl, rfl, .inl nofun⟩
  | row :: rows, s => by
    unfold Assembly.parseEnumRows
    cases hlength : row.length with
    | some token =>
      obtain ⟨hkinds, hlabels, hread⟩ := parseEnumRows_spec rows (s.parseExpression id token).2
      refine ⟨(sameKinds_parseExpression s id token).trans hkinds, congrArg (row.label :: ·) hlabels, ?_⟩
      by_cases hnone : (s.parseExpression id token).1 = none
      · have hrest : Changes .all (s.parseExpression id token).2
            ((s.parseExpression id token).2.parseEnumRows id rows).2 := changes_parseEnumRows rows _
        exact .inr (hrest.failed (failed_of_parseExpression hnone))
      · refine hread.imp_left fun hread r hr => ?_
        rcases List.mem_cons.mp hr with rfl | hr
        · exact fun _ => hnone
        · exact hread r hr
    | none =>
      obtain ⟨hkinds, hlabels, hread⟩ := parseEnumRows_spec rows s
      refine ⟨hkinds, congrArg (row.label :: ·) hlabels, hread.imp_left fun hread r hr => ?_⟩
      rcases List.mem_cons.mp hr with rfl | hr
      · exact fun h => absurd rfl h
      · exact hread r hr

theorem parseCells_spec : ∀ (cells : List GroupCell) (s : Assembly), SameKinds s (s.parseCells id cells).2 ∧
      (s.parseCells id cells).1.map (fun c => c.token) = cells.map (fun c => c.token) ∧
      ((∀ c ∈ (s.parseCells id cells).1, c.IsRead) ∨ (s.parseCells id cells).2.Failed)
  | [], _ => ⟨fun _ => rfl, rfl, .inl nofun⟩
  | cell :: cells, s => by
    obtain ⟨hkinds, htokens, hread⟩ := parseCells_spec cells (s.parseExpression id cell.token).2
    unfold parseCells
    refine ⟨(sameKinds_parseExpression s id cell.token).trans hkinds, congrArg (cell.token :: ·) htokens, ?_⟩
    rcases hread with hread | hfailed
    · cases hcell : (s.parseExpression id cell.token).1 with
      | none =>
        have hrest : Changes .all (s.parseExpression id cell.token).2
            ((s.parseExpression id cell.token).2.parseCells id cells).2 := changes_parseCells cells _
        exact .inr (hrest.failed (failed_of_parseExpression hcell))
      | some e => exact .inl (List.forall_mem_cons.mpr ⟨⟨e, hcell, parse_of_parseExpression hcell⟩, hread⟩)
    · exact .inr hfailed

theorem read_parseArguments {skipped : Nat} (hkind : ((s.parseArguments id skipped).line id).kind = .command part) :
    (∀ i, skipped ≤ i → i < part.arguments.length → part.expression? i ≠ none) ∨
      (s.parseArguments id skipped).Failed := by
  unfold parseArguments at hkind ⊢
  split at hkind
  · rename_i hnone
    rw [Line.command?, hkind] at hnone
    cases hnone
  rename_i before hcommand
  obtain ⟨hkinds, hlength, hfailed⟩ := parseExpressions_spec id (before.arguments.drop skipped) s
  simp only at hkind ⊢
  generalize s.parseExpressions id (before.arguments.drop skipped) = read at hkind hkinds hlength hfailed ⊢
  have hbefore : (read.2.line id).kind = .command before :=
    (hkinds id).trans (kind_of_command hcommand)
  rw [line_modifyLine] at hkind
  split at hkind
  · rw [kind_modifyCommand hbefore] at hkind
    cases hkind
    by_cases hnone : none ∈ read.1
    · exact .inr (hfailed hnone)
    · exact .inl fun i hi hlt => expression_ne_none hlength hnone hi hlt
  · rename_i hout
    have hge : read.2.lines.size ≤ id := Nat.le_of_not_lt fun hlt => hout ⟨rfl, hlt⟩
    rw [line_of_size_le hge] at hbefore
    cases hbefore

theorem read_parseEnumRows {rows : List EnumRow} (hkind : ((s.parseArguments id 0).line id).kind = .command part) :
    Line.CommandPart.IsRead { part with state := .enumeration ((s.parseArguments id 0).parseEnumRows id rows).1 } ∨
      ((s.parseArguments id 0).parseEnumRows id rows).2.Failed := by
  have hrows : Changes .all (s.parseArguments id 0) ((s.parseArguments id 0).parseEnumRows id rows).2 :=
    changes_parseEnumRows rows _
  rcases read_parseArguments hkind with hstart | hfailed
  · refine (parseEnumRows_spec rows _).2.2.imp_left fun hlengths => ⟨nofun, fun _ rows' heq => ?_⟩
    cases heq
    exact ⟨fun hne => hstart 0 (Nat.le_refl 0) (List.length_pos_iff.mpr hne), hlengths⟩
  · exact .inr (hrows.failed hfailed)

namespace Runs

theorem parseEnumeration {id : LineId} (hown : may.change id) : Runs may s (s.parseEnumeration id) := by
  refine (parseArguments hown (Nat.zero_le 1) (.inl rfl)).seq fun hs harguments => ?_
  unfold Assembly.parseEnumeration
  simp only
  split
  · rename_i rows hstate
    obtain ⟨part, hkind, hpart⟩ := kind_of_directiveState hstate nofun
    obtain ⟨hkinds, hlabels, -⟩ := parseEnumRows_spec rows (s.parseArguments id 0)
    have hrows : Changes may (s.parseArguments id 0) ((s.parseArguments id 0).parseEnumRows id rows).2 :=
      changes_parseEnumRows rows _
    refine Runs.trans (fun _ _ => hrows) (setParsed hown ⟨rfl, nofun, nofun, nofun⟩ ⟨nofun, ?_⟩
      (Line.not_holds_of_state ((hkinds id).trans hkind) (hpart ▸ nofun) (hpart ▸ nofun)) ?_ fun part' hkind' => ?_)
    · rintro _ ⟨⟩
      have hsound := harguments.sound hs
      have howned := (hsound.owned id).2
      rw [hkind] at howned
      obtain ⟨hnodup, hmem⟩ := howned.rows rows hpart
      refine ⟨hlabels ▸ hnodup, fun r hr => (hrows.later hsound).kept ?_⟩
      have hlabel := List.mem_map_of_mem (f := fun r => r.label) hr
      rw [hlabels] at hlabel
      obtain ⟨r', hr', heq⟩ := List.mem_map.mp hlabel
      exact heq ▸ hmem r' hr'
    · rw [← hkinds id] at hkind
      refine Line.inner_command hkind (.inr ?_)
      rw [hpart]
      exact nofun
    · rw [hkinds id, hkind] at hkind'
      cases hkind'
      exact read_parseEnumRows hkind
  · exact refl _

theorem parseGroup {id : LineId} (hown : may.change id) : Runs may s (s.parseGroup id) := by
  unfold Assembly.parseGroup
  split
  · rename_i cells hstate
    obtain ⟨hkinds, htokens, hread⟩ := parseCells_spec cells s
    have hcells : Runs may s (s.parseCells id cells).2 := fun _ _ => changes_parseCells cells s
    obtain ⟨part, hkind, hpart⟩ := kind_of_directiveState hstate nofun
    rw [← hkinds id] at hkind
    refine hcells.trans (single (change_setGroup hown hkind (.inr ⟨cells, hpart, htokens, ?_⟩)))
    refine hread.imp_left fun hread => ⟨fun _ _ heq => ?_, nofun⟩
    cases heq
    exact hread
  · exact refl s

end Runs

theorem change_setBinary {data : List UInt8} (hown : may.change id) (hinner : (s.line id).inner = [])
    (h : ∀ part, (s.line id).kind = .command part → part.directive = .includeBinary →
      (∀ i, 1 ≤ i → i < part.arguments.length → part.expression? i ≠ none) ∨ s.Failed)
    (hdata : ∀ part content, (s.line id).kind = .command part → part.Holds content → content = .bytes data) :
    Change may s (s.setDirectiveState id (.binary data)) := by
  refine .modify id _ hown (.modifyCommand (fun _ => rfl) (fun part hkind hc => ?_) (fun _ _ _ => trivial)
    (fun part content hkind h => ?_) (fun _ _ _ => claims_of_state nofun nofun) (fun _ => .inl rfl) fun _ _ => nofun)
    (grows_modifyCommand fun _ _ => .inr (grows_nil s id))
    (.inr (.modifyCommand (fun _ _ _ => .inl (isRead_of_state nofun nofun)) (hinner ▸ nofun) fun table h => ?_))
  · unfold Line.CommandPart.Complete at hc ⊢
    cases hd : part.directive with
    | bytes | words | longs =>
      rw [hd] at hc
      exact .inl hc
    | includeBinary => exact (h part hkind hd).imp_left fun hall _ _ => hall
    | _ => exact .inl trivial
  · cases hdata part content hkind h
    exact ⟨h.1, rfl, h.2.2⟩
  · exact absurd ((table_setState (by nofun)).symm.trans h) nofun

theorem changes_parseHex (hown : may.change id)
    (hkind : (s.line id).kind = .command part) (hdirective : part.directive = .hexBytes) :
    Changes may s (s.parseHex id part) := by
  unfold parseHex
  split
  · exact .refl
  split
  · rename_i argument rest harguments _ bytes hbytes
    refine .single (change_setBinary hown (Line.inner_command hkind (.inl ?_)) (fun part' hkind' hbinary => ?_)
      fun part' content hkind' h => ?_)
    · rw [hdirective]
      exact nofun
    · rw [hkind] at hkind'
      cases hkind'
      rw [hdirective] at hbinary
      cases hbinary
    rw [hkind] at hkind'
    cases hkind'
    cases content with
    | rows =>
      have hopens := h.1
      rw [hdirective] at hopens
      cases hopens
    | bytes bytes' =>
      obtain ⟨-, -, argument', rest', harguments', hbytes'⟩ := h
      rw [harguments] at harguments'
      cases harguments'
      rw [hbytes] at hbytes'
      exact congrArg _ (Except.ok.inj hbytes').symm
  · exact changes_fail s id _ _

/-! ## Files of data -/

theorem lines_firstFile : ∀ (paths : List Path) (s : Assembly), (s.firstFile paths).2.lines = s.lines
  | [], _ => rfl
  | path :: paths, s => by
    unfold firstFile
    simp only
    split
    · rfl
    · exact lines_firstFile paths _

theorem sameKinds_locate (s : Assembly) (id : LineId) (name : String) : SameKinds s (s.locate id name).2 := by
  have hlines : ∀ {paths : List Path} {found : Option (Path × List UInt8)} {t : Assembly},
      s.firstFile paths = (found, t) → t.lines = s.lines := by
    intro paths found t heq
    have h := lines_firstFile paths s
    rw [heq] at h
    exact h
  unfold locate
  simp only
  split
  · rename_i found t heq
    exact sameKinds_of_lines (hlines heq)
  · rename_i t heq
    exact (sameKinds_of_lines (hlines heq)).trans (sameKinds_fail t id _ _)

theorem sameKinds_noteReading (s : Assembly) (path : Path) : SameKinds s (s.noteReading path) := by
  unfold noteReading
  split
  · split
    · exact sameKinds_of_lines rfl
    · exact sameKinds_of_lines rfl
  · exact sameKinds_of_lines rfl

namespace Runs

theorem parseBinary {id : LineId} {part : Line.CommandPart} (hown : may.change id) (hid : id < s.lines.size)
    (hkind : (s.line id).kind = .command part) (hdirective : part.directive = .includeBinary) :
    Runs may s (s.parseBinary id part) := by
  unfold Assembly.parseBinary
  split
  · rename_i t heq
    exact (fileArgument s id part).result heq
  rename_i name t heq
  have hfile : Runs may s t := (fileArgument s id part).result heq
  refine hfile.seq fun hs hrun => ?_
  have hid' := Nat.lt_of_lt_of_le hid hrun.size_le
  obtain ⟨part', hkind', hdirective'⟩ := (hrun.linesKept hs).exists_command hid hkind
  rw [hdirective] at hdirective'
  have harguments : Runs may t (t.parseArguments id 1) := by
    refine parseArguments hown (Nat.le_refl 1) (.inr fun p hp d hd => ?_)
    rw [hkind'] at hp
    cases hp
    rw [hdirective']
    rintro rfl
    simp at hd
  split
  · rename_i u heq
    exact harguments.trans ((locate _ id name).result heq)
  rename_i path data u heq
  have hlocate : Runs may (t.parseArguments id 1) u := (locate _ id name).result heq
  have hkinds : SameKinds (t.parseArguments id 1) u := by
    have h := sameKinds_locate (t.parseArguments id 1) id name
    rw [heq] at h
    exact h
  refine harguments.seq fun hs' hread => (hlocate.trans (noteReading u path)).seq fun _ hlater => ?_
  obtain ⟨_, hkind'', hdirective''⟩ :=
    (Changes.linesKept (hread.trans hlater) hs').exists_command hid' hkind'
  refine single (change_setBinary hown (Line.inner_command hkind'' (.inl ?_)) (fun p hp _ => ?_) (Line.not_holds ?_))
  · rw [hdirective'', hdirective']
    exact nofun
  · rw [sameKinds_noteReading u path id, hkinds id] at hp
    exact (read_parseArguments hp).imp_right fun h => Changes.failed hlater h
  · rw [Line.isData, directive_of_kind hkind'', hdirective'', hdirective']
    rfl

theorem parseHeader {header : LineId} (hown : may.change header) : Runs may s (s.parseHeader header) := by
  unfold Assembly.parseHeader
  split
  · exact refl s
  split
  · exact parseArguments hown (Nat.zero_le 1) (.inl rfl)
  · exact parseArguments hown (Nat.zero_le 1) (.inl rfl)
  · split
    · exact refl s
    · split
      · exact refl s
      · exact fail s header _ _
  · split
    · exact refl s
    · split
      · exact refl s
      · exact fail s header _ _
  · exact refl s

theorem parseHeaders {id : LineId} {headers : List LineId} (hown : ∀ header ∈ headers, may.change header) :
    Runs may s (s.parseHeaders id headers) := by
  unfold Assembly.parseHeaders
  refine foldl (Nat.zero_le _) fun t _ header hheader => ?_
  split
  · split
    · exact refl t
    · exact parseHeader (hown header hheader)
  · refine ((checkArguments t header).trans (checkLabel _ header)).trans ?_
    simp only
    split
    · exact refl _
    · exact (parseHeader (hown header hheader)).trans (finish _ header)

end Runs

theorem change_setBranches {state : BranchState} (hown : may.change id) (hkind : (s.line id).kind = .command part)
    (hconditional : part.directive.isConditional = true) :
    Change may s (s.setDirectiveState id (.branches state)) := by
  refine change_setDirectiveState hown nofun nofun (claims_of_state nofun nofun) (fun part' hkind' => ?_)
    (Line.not_holds ?_) nofun (grows_nil s id) (.inr ⟨?_, fun _ _ => .inl (isRead_of_state nofun nofun)⟩)
  · rw [hkind] at hkind'
    cases hkind'
    exact hconditional
  · rw [Line.isData, directive_of_kind hkind]
    cases hdirective : part.directive with
    | when | whenDefined | whenUndefined => rfl
    | _ =>
      rw [hdirective] at hconditional
      cases hconditional
  · refine Line.inner_command hkind (.inl fun hinclude => ?_)
    rw [hinclude] at hconditional
    cases hconditional

namespace Runs

theorem parseConditional {id : LineId} {headers : List LineId} {part : Line.CommandPart}
    (hown : may.change id) (hid : id < s.lines.size)
    (hheaders : ∀ header ∈ headers, may.change header ∧ header < s.lines.size)
    (hkind : (s.line id).kind = .command part) (hconditional : part.directive.isConditional = true) :
    Runs may s (s.parseConditional id headers) := by
  unfold Assembly.parseConditional
  simp only
  have hread : Runs may s (s.parseHeaders id headers) :=
    parseHeaders fun header hheader => (hheaders header hheader).1
  -- a branch that cannot be used has been reported
  have hmark : Runs may s (if headers.any fun header =>
      header != id && ((s.parseHeaders id headers).line header).isSkipped
      then (s.parseHeaders id headers).mark id .error else s.parseHeaders id headers) := by
    split
    · rename_i hany
      refine hread.andThen fun hle => single (.mark id .error fun _ => .inr ?_)
      obtain ⟨header, hheader, hskipped⟩ := List.any_eq_true.mp hany
      rw [Bool.and_eq_true] at hskipped
      exact ⟨header, Nat.lt_of_lt_of_le (hheaders header hheader).2 hle, hskipped.2⟩
    · exact hread
  refine hmark.seq fun hs hrun => ?_
  obtain ⟨part', hkind', hdirective⟩ := (hrun.linesKept hs).exists_command hid hkind
  exact single (change_setBranches hown hkind' (hdirective ▸ hconditional))

theorem parseCommand {parse : Assembly → List Item → Assembly} {item : Item} {part : Line.CommandPart}
    (hitem : item.Proper fun id => may.change id ∧ id < s.lines.size)
    (hkind : (s.line item.id).kind = .command part)
    (hparse : RunsReading parse) : Runs may s (parseCommand parse s item part) := by
  have hown := hitem.id.1
  have hid := hitem.id.2
  have hzero : Runs may s (s.parseArguments item.id 0) := parseArguments hown (Nat.zero_le 1) (.inl rfl)
  have hheaders : ∀ header ∈ branchHeaders item, may.change header ∧ header < s.lines.size := by
    intro header hheader
    cases hitem with
    | line => cases hheader
    | conditional _ h =>
      obtain ⟨b, hb, rfl⟩ := List.mem_map.mp hheader
      exact h b hb
  have hconditional : part.directive.isConditional = true →
      Runs may s (s.parseConditional item.id (branchHeaders item)) :=
    parseConditional hown hid hheaders hkind
  unfold Assembly.parseCommand
  simp only
  split
  all_goals try exact hzero
  · rename_i hdirective
    refine parseArguments hown (Nat.le_refl 1) (.inr fun part' hkind' d hd => ?_)
    rw [hkind] at hkind'
    cases hkind'
    rw [hdirective]
    rintro rfl
    simp at hd
  · exact parseEnumeration hown
  · exact parseGroup hown
  · exact parseGroup hown
  · exact parseGroup hown
  · rename_i hdirective
    exact hconditional (by rw [hdirective]; rfl)
  · rename_i hdirective
    exact hconditional (by rw [hdirective]; rfl)
  · rename_i hdirective
    exact hconditional (by rw [hdirective]; rfl)
  · split
    · rename_i path items hstate
      have hbelow : items ∈ linesBelow (s.line item.id) := by
        rw [linesBelow_command hkind, hstate]
        exact List.mem_singleton_self items
      exact of fun hs hr => hparse may s items fun j hj =>
        (hr.below item.id hown items hbelow j hj).and (hs.below item.id items hbelow j hj)
    · exact refl s
  · rename_i hdirective
    exact parseBinary hown hid hkind hdirective
  · rename_i hdirective
    exact fun _ _ => changes_parseHex hown hkind hdirective
  · exact refl s

theorem setCallExpressions {id : LineId} {expressions : List (Option Expression)} (hown : may.change id)
    (h : none ∈ expressions → s.Failed) :
    Runs may s (s.modifyLine id fun l =>
      match l.kind with
      | .call part => { l with kind := .call { part with expressions } }
      | _ => l) := by
  refine single (change_modifyOther hown ?_)
  split
  · rename_i part hkind
    refine .inr ⟨rfl, ?_, ?_, rfl, fun hc => ?_, fun h => ⟨h.1, ?_⟩, fun items hitems => ?_, .inl ?_,
      fun items hitems => ?_⟩
    · rw [Line.isPlain, Line.isPlain, hkind]
    · rw [Line.directive?, Line.command?, hkind]
      rfl
    · by_cases hnone : none ∈ expressions
      · exact .inr (h hnone)
      · exact .inl hnone
    · have howned := h.2
      rw [hkind] at howned
      exact howned
    · rw [linesBelow, hkind]
      exact .inl hitems
    · rw [linesBelow, linesBelow, hkind]
    · rw [Line.inner, hkind] at hitems
      exact hitems
  · exact .inl rfl

end Runs

theorem parseCall_eq (parse : Assembly → List Item → Assembly) (s : Assembly) (id : LineId) (part : Line.CallPart) :
    ∃ t, (∀ may : Permit, may.change id → Runs may s t) ∧ parseCall parse s id part = match part.expansion with
      | some expansion => parse t expansion.items
      | none => t :=
  ⟨_, fun _ hown => (Runs.parseExpressions id part.arguments s).trans
    (.setCallExpressions hown (parseExpressions_spec id part.arguments s).2.2), rfl⟩

namespace Runs

theorem parseCall {parse : Assembly → List Item → Assembly} {id : LineId} {part : Line.CallPart}
    (hown : may.change id) (hkind : (s.line id).kind = .call part) (hparse : RunsReading parse) :
    Runs may s (parseCall parse s id part) := by
  refine of fun hs hr => ?_
  obtain ⟨t, hread, heq⟩ := parseCall_eq parse s id part
  rw [heq]
  refine (hread may hown).andThen fun hle => ?_
  split
  · rename_i expansion hexpansion
    have hbelow : expansion.items ∈ linesBelow (s.line id) := by
      rw [linesBelow, hkind]
      simp only [hexpansion]
      exact List.mem_singleton_self _
    refine hparse may _ expansion.items fun item hitem => ?_
    refine ((hr.below id hown _ hbelow item hitem).and (hs.below id _ hbelow item hitem)).mono fun j hj => ?_
    exact ⟨hj.1, Nat.lt_of_lt_of_le hj.2 hle⟩
  · exact refl _

theorem parseItem {calls files : Assembly → List Item → Assembly} {item : Item}
    (hitem : item.Proper fun id => may.change id ∧ id < s.lines.size) (hcalls : RunsReading calls)
    (hfiles : RunsReading files) : Runs may s (parseItem calls files s item) := by
  unfold Assembly.parseItem
  simp only
  split
  · exact refl s
  refine trans ?_ (finish _ item.id)
  split
  · exact parseInstruction hitem.id.1
  · exact parseVariable hitem.id.1
  · rename_i part hkind
    exact parseCommand hitem hkind hfiles
  · rename_i part hkind
    exact parseCall hitem.id.1 hkind hcalls
  · exact refl s
  · exact refl s

theorem parseWithin : ∀ bound : Budget, RunsReading (parseWithin bound)
  | .spent, _, s, _, _ => refl s
  | .left calls files, may, s, items, hitems => by
    unfold Assembly.parseWithin
    refine foldl (Nat.le_refl _) fun t hle item hitem => ?_
    split
    · exact refl t
    · refine parseItem ((hitems item hitem).mono fun j hj => ?_) (parseWithin calls) (parseWithin files)
      exact ⟨hj.1, Nat.lt_of_lt_of_le hj.2 hle⟩

theorem parse : RunsReading Assembly.parse := parseWithin .full

theorem analyze : RunsDeclaring Assembly.analyze :=
  (declare.comp resolve.declaring).comp parse.declaring

end Runs

end CrossAssembler.Assembly
