import CrossAssembler.Proofs.Assembly.Region

/-!
# Naming, reading and arranging are runs

* `Refines.modifyCommand` — what a directive may come to know about itself.
* `Runs.ofDefine`, `Runs.parseExpression`, `Runs.arrange` — the operations that the analysis of lines
  is made of, as runs.

Principal result: `arrange_proper` — arranged items consist of the lines they were made from.
-/

namespace CrossAssembler.Assembly

variable {s s' : Assembly} {may : Permit}
variable {l : Line} {part : Line.CommandPart} {id : LineId} {f : Line.CommandPart → Line.CommandPart}
variable {state : DirectiveState} {token : Token} {kind : LabelKind} {allow : Bool} {label : LabelId}
variable {d : Division} {ids : List LineId}

/-! ## Facts that changes keep -/

/-- What changes keep of a line. -/
structure LineKept (l l' : Line) : Prop where
  place : l'.place = l.place
  plain : l'.isPlain = l.isPlain
  directive : l'.directive? = l.directive?
  error : l.state = .error → l'.state = .error
  data : ∀ content, l.Holds content → l'.Holds content

theorem LineKept.refl (l : Line) : LineKept l l := ⟨rfl, rfl, rfl, id, fun _ => id⟩

theorem LineKept.scope {l' : Line} (h : LineKept l l') : l'.scope = l.scope := congrArg Prod.fst h.place

theorem LineKept.origin {l' : Line} (h : LineKept l l') : l'.origin = l.origin := congrArg (fun p => p.2.1) h.place

theorem LineKept.front {l' : Line} {d : Directive} (h : LineKept l l') (hd : l.directive? = some d) : l'.label = l.label := by
  have hlabel := congrArg (fun p => p.2.2) h.place
  simpa only [Line.place, h.directive, hd, Option.map_some, Option.some.injEq] using hlabel

theorem LineKept.trans {l' l'' : Line} (h : LineKept l l') (h' : LineKept l' l'') : LineKept l l'' :=
  ⟨h'.place.trans h.place, h'.plain.trans h.plain, h'.directive.trans h.directive, h'.error ∘ h.error,
    fun content => h'.data content ∘ h.data content⟩

theorem LineKept.of_kind {l' : Line} (hkind : l'.kind = l.kind) (hplace : l'.place = l.place)
    (herror : l.state = .error → l'.state = .error) : LineKept l l' := by
  refine ⟨hplace, Line.isPlain_congr hkind, ?_, herror, fun _ ⟨part, hpart, h⟩ => ⟨part, hkind.trans hpart, h⟩⟩
  unfold Line.directive? Line.command?
  rw [hkind]

/-- What changes keep of the lines that were there before. -/
structure LinesKept (s s' : Assembly) : Prop where
  line : ∀ id < s.lines.size, LineKept (s.line id) (s'.line id)

namespace LinesKept

theorem scope (h : LinesKept s s') (id : LineId) (hid : id < s.lines.size) :
    (s'.line id).scope = (s.line id).scope := (h.line id hid).scope

theorem plain (h : LinesKept s s') (id : LineId) (hid : id < s.lines.size) :
    (s'.line id).isPlain = (s.line id).isPlain := (h.line id hid).plain

theorem directive (h : LinesKept s s') (id : LineId) (hid : id < s.lines.size) :
    (s'.line id).directive? = (s.line id).directive? := (h.line id hid).directive

theorem directive_some (h : LinesKept s s') {d : Directive} (hd : (s.line id).directive? = some d) :
    (s'.line id).directive? = some d := by
  rcases Nat.lt_or_ge id s.lines.size with hlt | hge
  · exact (h.directive id hlt).trans hd
  · rw [line_of_size_le hge] at hd
    cases hd

theorem trans (h : LinesKept s s') (h' : LinesKept s' s'') (hle : s.lines.size ≤ s'.lines.size) : LinesKept s s'' :=
  ⟨fun id hid => (h.line id hid).trans (h'.line id (Nat.lt_of_lt_of_le hid hle))⟩

theorem of_modifyLine (id : LineId) {f : Line → Line} (h : LineKept (s.line id) (f (s.line id))) :
    LinesKept s (s.modifyLine id f) := by
  refine ⟨fun j _ => ?_⟩
  rw [line_modifyLine]
  split
  · rename_i hj
    exact hj.1 ▸ h
  · exact .refl _

theorem of_lines (h : s'.lines = s.lines) : LinesKept s s' := by
  refine ⟨fun id _ => ?_⟩
  unfold Assembly.line
  rw [h]
  exact .refl _

end LinesKept

theorem Change.linesKept (h : Change may s s') (hs : s.Sound) : LinesKept s s' := by
  cases h with
  | around hlines => exact .of_lines hlines
  | report | define | document | register | addScope => exact .of_lines rfl
  | mark id state =>
    exact .of_modifyLine id (.of_kind (Line.kind_mark _ _) (Line.place_mark _ _) fun h => Line.error_mark h state)
  | modify id f _ href =>
    exact .of_modifyLine id ⟨href.place, href.plain, href.directive, fun h => href.state.trans h, href.data⟩
  | name id label => exact .of_modifyLine id (.of_kind rfl rfl fun h => h)
  | assign label value => exact .of_lines (lines_setLabelValue s label value)
  | push l =>
    refine ⟨fun id hid => ?_⟩
    rw [line_push hs.free, if_neg (Nat.ne_of_lt hid)]
    exact .refl _

theorem Changes.linesKept (h : Changes may s s') (hs : s.Sound) : LinesKept s s' := by
  induction h with
  | refl => exact .of_lines rfl
  | tail hrun hstep ih => exact ih.trans (hstep.linesKept (Changes.sound hrun hs)) (Changes.size_le hrun)

theorem kind_of_command (h : l.command? = some part) : l.kind = .command part := by
  unfold Line.command? at h
  split at h
  · rename_i part' hkind
    cases h
    exact hkind
  · cases h

theorem directive_of_kind (h : l.kind = .command part) : l.directive? = some part.directive := by
  rw [Line.directive?, Line.command?, h]
  rfl

theorem LinesKept.exists_command (h : LinesKept s s') (hid : id < s.lines.size)
    (hkind : (s.line id).kind = .command part) :
    ∃ part', (s'.line id).kind = .command part' ∧ part'.directive = part.directive := by
  obtain ⟨part', hpart', hdirective⟩ :=
    Option.map_eq_some_iff.mp ((h.directive id hid).trans (directive_of_kind hkind))
  exact ⟨part', kind_of_command hpart', hdirective⟩

theorem journal_change (h : Change may s s') : s'.journal = s.journal := by
  cases h with
  | around _ _ _ _ _ hjournal => exact hjournal
  | assign label value => exact journal_setLabelValue s label value
  | report | mark | modify | name | define | document | register | addScope | push => rfl

theorem Changes.journal (h : Changes may s s') : s'.journal = s.journal := by
  induction h with
  | refl => rfl
  | tail _ hstep ih => exact (journal_change hstep).trans ih

theorem Changes.plain (h : Changes may s s') (hs : s.Sound) (hplain : s'.Plain) : s.Plain := by
  rw [plain_iff] at hplain ⊢
  intro id
  rcases Nat.lt_or_ge id s.lines.size with hlt | hge
  · rw [← (h.linesKept hs).plain id hlt]
    exact hplain id
  · rw [line_of_size_le hge]
    rfl

theorem Changes.room (h : Changes may s s') (hs : s.Sound) {scope : ScopeId} (hroom : s.Room scope) :
    s'.Room scope := hroom.mono (h.plain hs) h.journal

/-! ## What a directive comes to know -/

/-- The lines below a directive in some state. -/
def stateBelow : DirectiveState → List (List Item)
  | .repeated iterations => iterations.getD []
  | .included _ items => [items]
  | _ => []

theorem linesBelow_command (h : l.kind = .command part) : linesBelow l = stateBelow part.state := by
  unfold linesBelow
  rw [h]
  cases hstate : part.state <;> simp [stateBelow, hstate]

theorem kind_modifyCommand (h : l.kind = .command part) :
    l.modifyCommand f = { l with kind := .command (f part) } := by
  unfold Line.modifyCommand
  rw [h]

theorem modifyCommand_eq_self (h : ∀ part, l.kind ≠ .command part) : l.modifyCommand f = l := by
  unfold Line.modifyCommand
  split
  · rename_i part hkind
    exact absurd hkind (h part)
  · rfl

theorem Refines.refl {own : LineId → Prop} (l : Line) : Refines own s id l l where
  place := rfl
  state := rfl
  labelId := rfl
  org := rfl
  base := rfl
  bytes := rfl
  plain := rfl
  directive := rfl
  complete := .inl
  consistent h := h
  data _ h := h
  owned h := h
  rows _ := .inl
  below _ hitems := .inl hitems

theorem Refines.modifyCommand {own : LineId → Prop} (hdirective : ∀ part, (f part).directive = part.directive)
    (hcomplete : ∀ part, l.kind = .command part → part.Complete → (f part).Complete ∨ s.Failed)
    (hsuits : ∀ part, l.kind = .command part → Line.Suits part.directive part.state →
      Line.Suits part.directive (f part).state)
    (hdata : ∀ part content, l.kind = .command part → part.Holds content → (f part).Holds content)
    (hclaims : ∀ part, l.kind = .command part → s.Claims id part.state → s.Claims id (f part).state)
    (hrows : ∀ part, (f part).body = part.body ∨ ∀ row ∈ (f part).body.getD [], row < s.lines.size)
    (hbelow : ∀ part, l.kind = .command part → ∀ items ∈ stateBelow (f part).state,
      items ∈ stateBelow part.state ∨ ∀ item ∈ items, item.Proper fun id => own id ∧ id < s.lines.size) :
    Refines own s id l (l.modifyCommand f) := by
  by_cases hkind : ∃ part, l.kind = .command part
  · obtain ⟨part, hkind⟩ := hkind
    rw [kind_modifyCommand hkind]
    have hplain : Line.isPlain { l with kind := .command (f part) } = l.isPlain := by
      unfold Line.isPlain
      rw [hkind]
      simp only [hdirective]
    have hsame : Line.directive? { l with kind := .command (f part) } = l.directive? := by
      unfold Line.directive? Line.command?
      rw [hkind]
      simp only [Option.map_some, hdirective]
    refine ⟨?_, rfl, rfl, rfl, rfl, rfl, hplain, hsame, fun h => ?_, fun h => ?_, fun content h => ?_,
      fun h => ⟨h.1, ?_⟩, fun row hrow => ?_, fun items hitems => ?_⟩
    · rw [Line.place, Line.place, hsame]
    · unfold Line.Complete at h ⊢
      rw [hkind] at h
      exact hcomplete part hkind h
    · intro part' hpart'
      cases hpart'
      rw [hdirective]
      exact hsuits part hkind (h part hkind)
    · obtain ⟨part', hpart', hholds⟩ := h
      rw [hkind] at hpart'
      cases hpart'
      exact ⟨f part, rfl, hdata part content hkind hholds⟩
    · have howned := h.2
      rw [hkind] at howned
      exact hclaims part hkind howned
    · have hmem : row ∈ (f part).body.getD [] := hrow
      rcases hrows part with heq | hlt
      · rw [heq] at hmem
        exact .inl (by rw [Line.rows, hkind]; exact hmem)
      · exact .inr (hlt row hmem)
    · rw [linesBelow_command rfl] at hitems
      rw [linesBelow_command hkind]
      exact hbelow part hkind items hitems
  · rw [modifyCommand_eq_self fun part h => hkind ⟨part, h⟩]
    exact .refl l

theorem grows_nil (s : Assembly) (id : LineId) : s.Grows id [] := ⟨List.nodup_nil, nofun⟩

theorem grows_modifyCommand (h : ∀ part, l.kind = .command part → stateBelow (f part).state = stateBelow part.state ∨
      s.Grows id (stateBelow (f part).state)) :
    linesBelow (l.modifyCommand f) = linesBelow l ∨ s.Grows id (linesBelow (l.modifyCommand f)) := by
  by_cases hkind : ∃ part, l.kind = .command part
  · obtain ⟨part, hkind⟩ := hkind
    rw [kind_modifyCommand hkind, linesBelow_command hkind,
      linesBelow_command (l := { l with kind := .command (f part) }) rfl]
    exact h part hkind
  · rw [modifyCommand_eq_self fun part h => hkind ⟨part, h⟩]
    exact .inl rfl

theorem Line.inner_command (hkind : l.kind = .command part)
    (h : part.directive ≠ .includeSource ∨ ∀ path items, part.state ≠ .included path items) :
    l.inner = [] := by
  unfold Line.inner
  rw [hkind]
  simp only
  split
  · rename_i path items hdirective hstate
    rcases h with h | h
    · exact absurd hdirective h
    · exact absurd hstate (h path items)
  · rfl

theorem kind_of_directiveState (h : s.directiveState id = state)
    (hne : state ≠ .none) : ∃ part, (s.line id).kind = .command part ∧ part.state = state := by
  unfold directiveState at h
  split at h
  · rename_i part hcommand
    exact ⟨part, kind_of_command hcommand, h⟩
  · exact absurd h.symm hne

/-- A state that holds no lines, no data and no branches. -/
def IsInert (state : DirectiveState) : Prop :=
  stateBelow state = [] ∧ (∀ data, state ≠ .binary data) ∧ (∀ b, state ≠ .branches b) ∧ ∀ cells, state ≠ .group cells

theorem IsInert.suits (h : IsInert state) (d : Directive) : Line.Suits d state := by
  cases hstate : state with
  | branches b => exact absurd hstate (h.2.2.1 b)
  | included path items =>
    have hnil := h.1
    rw [hstate] at hnil
    cases hnil
  | _ => trivial

theorem complete_withState (hbinary : ∀ data, state ≠ .binary data) (h : part.Complete) :
    Line.CommandPart.Complete { part with state } := by
  unfold Line.CommandPart.Complete at h ⊢
  cases hd : part.directive with
  | bytes | words | longs =>
    rw [hd] at h
    exact h
  | includeBinary => exact fun data hdata => absurd hdata (hbinary data)
  | _ => trivial

theorem Keeps.refl (l : Line) : Keeps s l l := ⟨.inl, fun _ h => h, fun _ h => h⟩

theorem Keeps.modifyCommand (hread : ∀ part, l.kind = .command part → part.IsRead → (f part).IsRead ∨ s.Failed)
    (hinner : ∀ items ∈ l.inner, items ∈ (l.modifyCommand f).inner)
    (htable : ∀ table, (l.modifyCommand f).table? = some table → l.table? = some table) :
    Keeps s l (l.modifyCommand f) := by
  refine ⟨fun hl => ?_, hinner, htable⟩
  by_cases hkind : ∃ part, l.kind = .command part
  · obtain ⟨part, hkind⟩ := hkind
    rw [kind_modifyCommand hkind]
    refine (hread part hkind (hl part hkind)).imp_left fun h part' hpart' => ?_
    cases hpart'
    exact h
  · rw [modifyCommand_eq_self fun part h => hkind ⟨part, h⟩]
    exact .inl hl

theorem Keeps.sameState (hf : ∀ part, (f part).directive = part.directive ∧ (f part).state = part.state)
    (hbody : ∀ part cells, l.kind = .command part → part.state = .group cells → (f part).body = part.body)
    (hread : ∀ part, l.kind = .command part → part.IsRead → (f part).IsRead ∨ s.Failed) :
    Keeps s l (l.modifyCommand f) := by
  by_cases hkind : ∃ part, l.kind = .command part
  · obtain ⟨part, hkind⟩ := hkind
    refine .modifyCommand hread (fun items hitems => ?_) fun table htable => ?_
    · rw [kind_modifyCommand hkind]
      unfold Line.inner at hitems ⊢
      rw [hkind] at hitems
      simp only [(hf part).1, (hf part).2]
      exact hitems
    · rw [kind_modifyCommand hkind] at htable
      unfold Line.table? at htable ⊢
      simp only [(hf part).2] at htable
      simp only [hkind]
      split at htable
      · rename_i cells hstate
        rw [← hbody part cells hkind hstate]
        exact htable
      · cases htable
  · rw [modifyCommand_eq_self fun part h => hkind ⟨part, h⟩]
    exact .refl l

theorem table_command (h : l.kind = .command part) {cells : List GroupCell} (hstate : part.state = .group cells) :
    l.table? = some (part.body.getD [], cells.map fun c => c.token) := by
  simp only [Line.table?, h, hstate]

theorem table_setState (h : ∀ cells, state ≠ .group cells) :
    (l.modifyCommand fun part => { part with state }).table? = none := by
  by_cases hkind : ∃ part, l.kind = .command part
  · obtain ⟨part, hkind⟩ := hkind
    rw [kind_modifyCommand hkind, Line.table?]
    cases state with
    | group cells => exact absurd rfl (h cells)
    | _ => rfl
  · rw [modifyCommand_eq_self fun part h => hkind ⟨part, h⟩, Line.table?]
    split
    · rename_i part hpart
      exact absurd ⟨part, hpart⟩ hkind
    · rfl

theorem isRead_of_state (hgroup : ∀ cells, part.state ≠ .group cells)
    (henum : ∀ rows, part.state ≠ .enumeration rows) : part.IsRead :=
  ⟨fun _ cells h => absurd h (hgroup cells), fun _ rows h => absurd h (henum rows)⟩

theorem claims_of_state (hlabel : ∀ label, state ≠ .defined label)
    (henum : ∀ rows, state ≠ .enumeration rows) : s.Claims id state :=
  ⟨fun label h => absurd h (hlabel label), fun rows h => absurd h (henum rows)⟩

/-- A directive comes to a state. Unless it is declared anew, no lines that belong to it are lost, and
its rows have been read. -/
theorem change_setDirectiveState (hown : may.change id)
    (hbinary : ∀ data, state ≠ .binary data) (hgroup : ∀ cells, state ≠ .group cells) (hclaims : s.Claims id state)
    (hsuits : ∀ part, (s.line id).kind = .command part → Line.Suits part.directive state)
    (hdata : ∀ part content, (s.line id).kind = .command part → part.Holds content →
      Line.CommandPart.Holds { part with state } content)
    (hbelow : ∀ items ∈ stateBelow state, ∀ item ∈ items, item.Proper fun id => may.attach id ∧ id < s.lines.size)
    (hgrows : s.Grows id (stateBelow state))
    (hkeeps : may.declare id ∨ (s.line id).inner = [] ∧ ∀ part, (s.line id).kind = .command part →
      Line.CommandPart.IsRead { part with state } ∨ s.Failed) :
    Change may s (s.setDirectiveState id state) := by
  have htable : ∀ {P : List LineId × List Token → Prop} (table : List LineId × List Token),
      ((s.line id).modifyCommand fun part => { part with state }).table? = some table → P table := fun _ h =>
    absurd ((table_setState hgroup).symm.trans h) nofun
  refine .modify id _ hown (.modifyCommand (fun _ => rfl) (fun part _ hc => ?_)
    (fun part hkind _ => hsuits part hkind) hdata (fun _ _ _ => hclaims) (fun _ => .inl rfl) fun part _ items hitems => ?_)
    (grows_modifyCommand fun _ _ => .inr hgrows) (hkeeps.imp (fun h => ⟨h, htable⟩) fun h => ?_)
  · exact .inl (complete_withState hbinary hc)
  · exact .inr (hbelow items hitems)
  · refine .modifyCommand (fun part hkind _ => h.2 part hkind) ?_ htable
    rw [h.1]
    exact nofun

theorem change_setGroup {cells : List GroupCell} (hown : may.change id) (hkind : (s.line id).kind = .command part)
    (hkeeps : may.declare id ∧ part.directive ≠ .hexBytes ∧
        (s.Tabulated id (part.body.getD []) (cells.map fun c => c.token) ∨ s.Failed) ∨
      ∃ cells', part.state = .group cells' ∧ cells.map (fun c => c.token) = cells'.map (fun c => c.token) ∧
        (Line.CommandPart.IsRead { part with state := .group cells } ∨ s.Failed)) :
    Change may s (s.setDirectiveState id (.group cells)) := by
  have hpart : ∀ {part'}, (s.line id).kind = .command part' → part' = part := by
    intro part' hkind'
    rw [hkind] at hkind'
    exact (Line.Kind.command.inj hkind').symm
  have htable : ((s.line id).modifyCommand fun part => { part with state := .group cells }).table? =
      some (part.body.getD [], cells.map fun c => c.token) := by
    rw [kind_modifyCommand hkind]
    rfl
  refine .modify id _ hown (.modifyCommand (fun _ => rfl) (fun _ _ hc => .inl (complete_withState nofun hc))
    (fun _ _ _ => trivial) (fun part' content hkind' h => ?_) (fun _ _ _ => claims_of_state nofun nofun)
    (fun _ => .inl rfl) fun _ _ => nofun)
    (grows_modifyCommand fun _ _ => .inr (grows_nil s id)) (hkeeps.imp (fun h => ⟨h.1, fun table heq => ?_⟩) ?_)
  · rw [hpart hkind'] at h ⊢
    cases content with
    | rows => exact ⟨h.1, ⟨cells, rfl⟩, h.2.2⟩
    | bytes data =>
      rcases hkeeps with hdeclared | ⟨cells', hstate, -⟩
      · exact absurd h.1 hdeclared.2.1
      · cases hstate.symm.trans h.2.1
  · rw [htable] at heq
    cases heq
    exact h.2.2
  · rintro ⟨cells', hstate, htokens, hread⟩
    refine .modifyCommand (fun part' hkind' _ => hpart hkind' ▸ hread) ?_ fun table heq => ?_
    · rw [Line.inner_command hkind (.inr (hstate ▸ nofun))]
      exact nofun
    · rw [table_command hkind hstate, ← htokens, ← htable]
      exact heq

theorem Keeps.of_kind {l' : Line} (h : l'.kind = l.kind) : Keeps s l l' := by
  refine ⟨fun hl => .inl fun part hkind => hl part (h ▸ hkind), fun items hitems => ?_, fun table htable => ?_⟩
  · unfold Line.inner at hitems ⊢
    rw [h]
    exact hitems
  · rw [← htable, Line.table?, Line.table?, h]

/-- A line that is declared as a data group has the cells of its rows. Any other line keeps what it has read, the
lines that belong to it and its cells. -/
theorem Change.declares_or_keeps (h : Change may s s') (hs : s.Sound) (id : LineId) :
    may.declare id ∧ (∀ table, (s'.line id).table? = some table → s.Tabulated id table.1 table.2 ∨ s.Failed) ∨
      Keeps s' (s.line id) (s'.line id) := by
  cases h with
  | around hlines =>
    unfold line
    rw [hlines]
    exact .inr (.refl _)
  | report | define | document | register | addScope => exact .inr (.refl _)
  | mark j state =>
    rw [Assembly.mark, line_modifyLine]
    split
    · exact .inr (.of_kind (Line.kind_mark _ _))
    · exact .inr (.refl _)
  | modify j f _ _ _ hkeeps =>
    rw [line_modifyLine]
    split
    · rename_i hj
      rw [hj.1]
      exact hkeeps.imp_right fun h => ⟨h.read, h.inner, h.table⟩
    · exact .inr (.refl _)
  | name j label =>
    rw [line_modifyLine]
    split
    · exact .inr (.of_kind rfl)
    · exact .inr (.refl _)
  | assign label value =>
    unfold line
    rw [lines_setLabelValue]
    exact .inr (.refl _)
  | push l hl =>
    rw [line_push hs.free]
    split
    · rename_i heq
      refine .inr ⟨fun _ => .inl hl.read, fun items hitems => ?_, fun table htable => ?_⟩
      · rw [line_of_size_le (Nat.le_of_eq heq.symm)] at hitems
        cases hitems
      · rw [hl.table] at htable
        cases htable
    · exact .inr (.refl _)

theorem Change.keeps (h : Change may s s') (hs : s.Sound) (hid : ¬ may.declare id) :
    Keeps s' (s.line id) (s'.line id) := (h.declares_or_keeps hs id).resolve_left fun h => hid h.1

/-- Whether lines may be changed but not declared, and none is a data group. -/
def Clear (may : Permit) (s : Assembly) (ids : List LineId) : Prop :=
  ∀ id ∈ ids, may.change id ∧ ¬ may.declare id ∧ id < s.lines.size ∧ (s.line id).table? = none

theorem Changes.table_eq_none (h : Changes may s s') (hs : s.Sound) (hid : ¬ may.declare id)
    (hnone : (s.line id).table? = none) : (s'.line id).table? = none := by
  induction h with
  | refl => exact hnone
  | tail hrun hstep ih =>
    refine Option.eq_none_iff_forall_ne_some.mpr fun table htable => ?_
    cases ih.symm.trans ((hstep.keeps (Changes.sound hrun hs) hid).table table htable)

theorem Clear.later (h : Clear may s ids) (hrun : Changes may s s') (hs : s.Sound) : Clear may s' ids :=
  fun id hid => by
    obtain ⟨hown, hnot, hlt, hnone⟩ := h id hid
    exact ⟨hown, hnot, Nat.lt_of_lt_of_le hlt hrun.size_le, hrun.table_eq_none hs hnot hnone⟩

namespace Runs

variable {id : LineId}

theorem modify {f : Line → Line} (hown : may.change id) (h : Refines may.attach s id (s.line id) (f (s.line id)))
    (hgrows : linesBelow (f (s.line id)) = linesBelow (s.line id) ∨ s.Grows id (linesBelow (f (s.line id))))
    (hkeeps : Keeps s (s.line id) (f (s.line id))) : Runs may s (s.modifyLine id f) :=
  single (.modify id f hown h hgrows (.inr hkeeps))

theorem setParsed {state : DirectiveState} (hown : may.change id) (h : IsInert state)
    (hclaims : s.Claims id state) (hdata : ∀ part content, (s.line id).kind = .command part → part.Holds content →
      Line.CommandPart.Holds { part with state } content) (hinner : (s.line id).inner = [])
    (hread : ∀ part, (s.line id).kind = .command part → Line.CommandPart.IsRead { part with state } ∨ s.Failed) :
    Runs may s (s.setDirectiveState id state) := by
  refine single (change_setDirectiveState hown h.2.1 h.2.2.2 hclaims (fun _ _ => h.suits _) hdata ?_ ?_
    (.inr ⟨hinner, hread⟩))
  · rw [h.1]
    exact nofun
  · rw [h.1]
    exact grows_nil s id

theorem setDeclared {state : DirectiveState} (hopen : may.declare id) (h : IsInert state)
    (hother : (s.line id).isData = false) (hclaims : s.Claims id state) :
    Runs may s (s.setDirectiveState id state) := by
  refine single (change_setDirectiveState (may.sub id hopen) h.2.1 h.2.2.2 hclaims (fun _ _ => h.suits _)
    (Line.not_holds hother) ?_ ?_ (.inl hopen))
  · rw [h.1]
    exact nofun
  · rw [h.1]
    exact grows_nil s id

end Runs

/-! ## Naming -/

theorem changes_symbolError (s : Assembly) (id : LineId) (e : SymbolError) (span : Span) :
    Changes may s (s.symbolError id e span) := by
  unfold symbolError
  simp only
  exact Relation.ReflTransGen.tail (.single (.report _)) (.mark id .error fun _ => .inl (failed_of_report rfl))

theorem changes_defineLabel {scope : ScopeId} {made : Option LabelId}
    (h : s.defineLabel id token scope kind allow = (made, s')) (hroom : s.Room scope)
    (hkind : kind = .variable → ¬ s.Plain) : Changes may s s' := by
  unfold defineLabel at h
  split at h
  · cases h
    exact changes_fail s id _ _
  split at h
  · rename_i hcreate
    cases h
    exact .single (.define id hcreate hroom hkind)
  · cases h
    exact changes_symbolError s id _ _

namespace Runs

theorem symbolError (s : Assembly) (id : LineId) (e : SymbolError) (span : Span) :
    Runs may s (s.symbolError id e span) := fun _ _ => changes_symbolError s id e span

theorem ofDefine {id : LineId} {token : Token} {scope : ScopeId} {kind : LabelKind} {allow : Bool}
    {made : Option LabelId} (h : s.defineLabel id token scope kind allow = (made, s'))
    (hroom : s.Room scope) (hkind : kind = .variable → ¬ s.Plain) : Runs may s s' :=
  fun _ _ => changes_defineLabel h hroom hkind

theorem setDoc (s : Assembly) (label : LabelId) (doc : Option String) :
    Runs may s (s.setDoc label doc) := single (.document label doc)

end Runs

theorem lines_defineLabel {scope : ScopeId} (h : s.defineLabel id token scope kind allow = (some label, s')) :
    s'.lines = s.lines := by
  unfold defineLabel at h
  split at h
  · cases h
  · split at h
    · cases h
      rfl
    · cases h

theorem defineLabel_eq_some {scope : ScopeId} (hfree : s.symbols.freeLabels = [])
    (h : s.defineLabel id token scope kind allow = (some label, s')) :
    label = s.symbols.labels.size ∧ label < s'.symbols.labels.size ∧
      (s'.symbols.label label).identity = (kind, token) ∧ (s'.symbols.label label).value = none ∧ s'.rowLabels =
        if kind = .defined ∧ (s.line id).hasRows = true then (label, id) :: s.rowLabels else s.rowLabels := by
  unfold defineLabel at h
  split at h
  · cases h
  split at h
  · rename_i hcreate
    cases h
    obtain ⟨rfl, hsize⟩ := SymbolTable.labels_createLabel hfree hcreate
    refine ⟨rfl, hsize ▸ Nat.lt_succ_self _, (SymbolTable.identity_createLabel hfree hcreate).2.1, ?_, rfl⟩
    exact (SymbolTable.value_createLabel hfree hcreate _).trans (SymbolTable.value_of_size_le (Nat.le_refl _))
  · cases h

theorem failed_defineLabel {scope : ScopeId} (h : s.defineLabel id token scope kind allow = (none, s')) :
    s'.Failed := by
  unfold defineLabel at h
  split at h
  · cases h
    exact failed_fail s id _ _
  · split at h
    · cases h
    · cases h
      exact failed_of_report rfl

theorem free_defineLabel {scope : ScopeId} (hs : s.Sound)
    (h : s.defineLabel id token scope kind allow = (some label, s'))
    (hother : kind ≠ .defined ∨ (s.line id).hasRows ≠ true) : s'.Free label := by
  obtain ⟨hlabel, hlt, -, -, hrows⟩ := defineLabel_eq_some hs.freeLabels h
  rw [if_neg (not_and_or.mpr hother)] at hrows
  refine ⟨hlt, fun k hmem => ?_⟩
  rw [hrows, hlabel] at hmem
  exact Nat.lt_irrefl _ (hs.rowLabels _ hmem).1

theorem Free.setDoc (h : s.Free label) (other : LabelId) (doc : Option String) : (s.setDoc other doc).Free label :=
  ⟨Nat.lt_of_lt_of_eq h.1 Array.size_modify.symm, h.2⟩

namespace Runs

theorem defineLineLabel {id : LineId} (hown : may.change id) (hid : id < s.lines.size) :
    Runs may s (s.defineLineLabel id) := by
  refine of fun hs hr => ?_
  have hroom := hr.room id hown hid
  unfold Assembly.defineLineLabel
  simp only
  split
  · rename_i token hlabel hnone
    split
    · rename_i label t hdef
      refine (ofDefine hdef hroom nofun).trans ((setDoc t label _).trans (single (.name id label hown ?_ ?_)))
      · change (t.line id).labelId = none
        unfold line
        rw [lines_defineLabel hdef]
        exact hnone
      · exact (free_defineLabel hs hdef (.inl nofun)).setDoc label _
    · rename_i t hdef
      exact ofDefine hdef hroom nofun
  · exact refl s

end Runs

/-! ## Reading expressions -/

/-- Whether every line is what it was. -/
def SameKinds (s s' : Assembly) : Prop := ∀ id, (s'.line id).kind = (s.line id).kind

theorem SameKinds.trans {s'' : Assembly} (h : SameKinds s s') (h' : SameKinds s' s'') :
    SameKinds s s'' := fun id => (h' id).trans (h id)

theorem sameKinds_mark (s : Assembly) (id : LineId) (state : LineState) : SameKinds s (s.mark id state) := by
  intro j
  unfold mark
  rw [line_modifyLine]
  split
  · exact Line.kind_mark _ _
  · rfl

theorem sameKinds_fail (s : Assembly) (id : LineId) (span : Span) (message : String) :
    SameKinds s (s.fail id span message) :=
  sameKinds_mark (s.report { severity := .error, message, primary := span }) id .error

theorem sameKinds_of_lines (h : s'.lines = s.lines) : SameKinds s s' := by
  intro id
  unfold line
  rw [h]

theorem sameKinds_defineLabel (s : Assembly) (id : LineId) (token : Token) (scope : ScopeId)
    (kind : LabelKind) (allow : Bool) : SameKinds s (s.defineLabel id token scope kind allow).2 := by
  unfold defineLabel
  split
  · exact sameKinds_fail s id _ _
  · split
    · exact sameKinds_of_lines rfl
    · exact (sameKinds_of_lines rfl).trans (sameKinds_mark _ id .error)

theorem sameKinds_defineLineLabel (s : Assembly) (id : LineId) : SameKinds s (s.defineLineLabel id) := by
  unfold defineLineLabel
  simp only
  split
  · rename_i token _ _
    have hdefine := sameKinds_defineLabel s id token (s.line id).scope .label true
    split
    · rename_i label t hdef
      rw [hdef] at hdefine
      refine hdefine.trans fun j => ?_
      rw [line_modifyLine]
      split
      · rfl
      · rfl
    · rename_i t hdef
      rw [hdef] at hdefine
      exact hdefine
  · exact sameKinds_of_lines rfl

theorem addReferences_eq (s : Assembly) (source : SourceId) (e : Expression) :
    ∃ symbols, s.addReferences source e = { s with symbols } ∧ symbols.labels = s.symbols.labels ∧
      symbols.scopes = s.symbols.scopes ∧ symbols.freeLabels = s.symbols.freeLabels ∧
      symbols.freeScopes = s.symbols.freeScopes ∧ symbols.groups = s.symbols.groups := by
  refine ⟨_, rfl, ?_⟩
  induction e.references using List.reverseRecOn with
  | nil => exact ⟨rfl, rfl, rfl, rfl, rfl⟩
  | append_singleton rs r ih =>
    rw [List.foldl_concat]
    split
    · unfold SymbolTable.addReference
      split
      · exact ih
      · exact ih
    · exact ih

theorem changes_parseExpression (s : Assembly) (id : LineId) (token : Token) :
    Changes may s (s.parseExpression id token).2 := by
  unfold parseExpression
  split
  · rename_i e _
    obtain ⟨symbols, heq, hlabels, hscopes, hfreeLabels, hfreeScopes, hgroups⟩ :=
      addReferences_eq s token.source e
    rw [heq]
    exact .single (.register symbols hlabels hscopes hfreeLabels hfreeScopes fun g hg => .inl (hgroups ▸ hg))
  · exact changes_fail s id _ _

theorem sameKinds_parseExpression (s : Assembly) (id : LineId) (token : Token) :
    SameKinds s (s.parseExpression id token).2 := by
  unfold parseExpression
  split
  · exact fun _ => rfl
  · exact sameKinds_fail s id _ _

theorem failed_of_parseExpression
    (h : (s.parseExpression id token).1 = none) : (s.parseExpression id token).2.Failed := by
  unfold parseExpression at h ⊢
  split at h
  · cases h
  · exact failed_fail s id _ _

theorem parse_of_parseExpression {e : Expression} (h : (s.parseExpression id token).1 = some e) :
    Expression.parse token.text = .ok e := by
  unfold parseExpression at h
  split at h
  · rename_i hparse
    cases h
    exact hparse
  · cases h

theorem changes_parseExpressions (id : LineId) :
    ∀ (tokens : List Token) (s : Assembly), Changes may s (s.parseExpressions id tokens).2
  | [], _ => .refl
  | token :: tokens, s =>
    (changes_parseExpression s id token).trans (changes_parseExpressions id tokens _)

theorem parseExpressions_spec (id : LineId) : ∀ (tokens : List Token) (s : Assembly),
      SameKinds s (s.parseExpressions id tokens).2 ∧
      (s.parseExpressions id tokens).1.length = tokens.length ∧
      (none ∈ (s.parseExpressions id tokens).1 → (s.parseExpressions id tokens).2.Failed)
  | [], _ => ⟨fun _ => rfl, rfl, fun h => by cases h⟩
  | token :: tokens, s => by
    obtain ⟨hkinds, hlength, hfailed⟩ :=
      parseExpressions_spec id tokens (s.parseExpression id token).2
    have hrest : Changes .all _ _ :=
      changes_parseExpressions id tokens (s.parseExpression id token).2
    refine ⟨(sameKinds_parseExpression s id token).trans hkinds, ?_, fun h => ?_⟩
    · simp only [parseExpressions, List.length_cons, hlength]
    · rcases List.mem_cons.mp h with h | h
      · exact Changes.failed hrest (failed_of_parseExpression h.symm)
      · exact hfailed h

theorem expression_ne_none {skipped : Nat} {es : List (Option Expression)}
    (hlength : es.length = (part.arguments.drop skipped).length)
    (hnone : none ∉ es) {i : Nat} (hi : skipped ≤ i) (hlt : i < part.arguments.length) :
    Line.CommandPart.expression? { part with
      expressions := List.replicate (min skipped part.arguments.length) none ++ es } i ≠ none := by
  unfold Line.CommandPart.expression?
  simp only
  rw [List.length_drop] at hlength
  rw [List.getElem?_append_right (by rw [List.length_replicate]; omega), List.length_replicate]
  have hbound : i - min skipped part.arguments.length < es.length := by omega
  rw [List.getElem?_eq_getElem hbound]
  intro hnone'
  exact hnone (hnone' ▸ List.getElem_mem hbound)

theorem complete_withExpressions {skipped : Nat} {es : List (Option Expression)} (hskipped : skipped ≤ 1)
    (hdata : skipped = 0 ∨ ∀ d ∈ [Directive.bytes, .words, .longs], part.directive ≠ d)
    (hlength : es.length = (part.arguments.drop skipped).length) (hnone : none ∉ es) :
    Line.CommandPart.Complete { part with
      expressions := List.replicate (min skipped part.arguments.length) none ++ es } := by
  unfold Line.CommandPart.Complete
  have hall : skipped = 0 → none ∉ List.replicate (min skipped part.arguments.length) none ++ es := by
    rintro rfl
    simpa using hnone
  cases hd : part.directive with
  | bytes | words | longs =>
    rcases hdata with h | h
    · exact hall h
    · exact absurd hd (h _ (by simp))
  | includeBinary =>
    intro data _ i hi hlt
    exact expression_ne_none hlength hnone (Nat.le_trans hskipped hi) hlt
  | _ => trivial

namespace Runs

theorem parseExpression (s : Assembly) (id : LineId) (token : Token) :
    Runs may s (s.parseExpression id token).2 := fun _ _ => changes_parseExpression s id token

theorem parseExpressions (id : LineId) (tokens : List Token) (s : Assembly) :
    Runs may s (s.parseExpressions id tokens).2 := fun _ _ => changes_parseExpressions id tokens s

theorem parseArguments {id : LineId} {skipped : Nat} (hown : may.change id) (hskipped : skipped ≤ 1)
    (hdata : skipped = 0 ∨ ∀ part, (s.line id).kind = .command part →
      ∀ d ∈ [Directive.bytes, .words, .longs, .enumeration], part.directive ≠ d) :
    Runs may s (s.parseArguments id skipped) := by
  unfold Assembly.parseArguments
  split
  · exact refl s
  rename_i part hcommand
  have hkind := kind_of_command hcommand
  obtain ⟨hkinds, hlength, hfailed⟩ := parseExpressions_spec id (part.arguments.drop skipped) s
  refine (parseExpressions id (part.arguments.drop skipped) s).trans ?_
  by_cases hnone : none ∈ (s.parseExpressions id (part.arguments.drop skipped)).1
  · have hreported := hfailed hnone
    exact modify hown (.modifyCommand (fun _ => rfl) (fun _ _ _ => .inr hreported) (fun _ _ hsuits => hsuits) (fun _ _ _ h => h)
      (fun _ _ hclaims => hclaims) (fun _ => .inl rfl) fun _ _ items hitems => .inl hitems) (grows_modifyCommand fun _ _ => .inl rfl)
      (.sameState (fun _ => ⟨rfl, rfl⟩) (fun _ _ _ _ => rfl) fun _ _ _ => .inr hreported)
  rw [← hkinds id] at hkind
  refine modify hown (.modifyCommand (fun _ => rfl) (fun part' hpart' _ => .inl ?_) (fun _ _ hsuits => hsuits) (fun _ _ _ h => h)
    (fun _ _ hclaims => hclaims) (fun _ => .inl rfl) fun _ _ items hitems => .inl hitems) (grows_modifyCommand fun _ _ => .inl rfl)
    (.sameState (fun _ => ⟨rfl, rfl⟩) (fun _ _ _ _ => rfl) fun part' hpart' hread => .inl ?_)
  · rw [hkind] at hpart'
    cases hpart'
    refine complete_withExpressions hskipped (hdata.imp_right fun h d hd => ?_) hlength hnone
    exact h part (hkinds id ▸ hkind) d (List.mem_append_left [Directive.enumeration] hd)
  · rw [hkind] at hpart'
    cases hpart'
    refine ⟨hread.cells, fun henum rows hrows => ⟨fun hne => ?_, (hread.lengths henum rows hrows).2⟩⟩
    obtain rfl := hdata.resolve_right fun h => h part (hkinds id ▸ hkind) _ (by decide) henum
    exact expression_ne_none hlength hnone (Nat.le_refl 0) (List.length_pos_iff.mpr hne)

end Runs

/-! ## Blocks -/

theorem splitAtCloser_eq {directive? : LineId → Option Directive} {closer : Directive} :
    ∀ {depth : Nat} {ids body after : List LineId} {stop : LineId},
      splitAtCloser directive? closer depth ids = some (body, stop, after) → ids = body ++ stop :: after
  | _, [], _, _, _, h => by cases h
  | depth, id :: rest, body, after, stop, h => by
    have hcons : ∀ {depth : Nat}, (splitAtCloser directive? closer depth rest).map
        (fun found => (id :: found.1, found.2)) = some (body, stop, after) → id :: rest = body ++ stop :: after := by
      intro depth hmap
      obtain ⟨⟨inner, stop', after'⟩, hsplit, heq⟩ := Option.map_eq_some_iff.mp hmap
      cases heq
      rw [splitAtCloser_eq hsplit]
      rfl
    unfold splitAtCloser at h
    split at h
    · exact hcons h
    split at h
    · exact hcons h
    split at h
    · split at h
      · cases h
        rfl
      · exact hcons h
    · exact hcons h

/-- The lines of branches, each after its divider. -/
def branchIds (branches : List (LineId × List LineId)) : List LineId := branches.flatMap fun b => b.1 :: b.2

/-- The parts of a division are lines that were divided, in their order. -/
structure Division.Of (d : Division) (ids : List LineId) : Prop where
  kept : (d.first ++ branchIds d.branches).Sublist ids
  rejected : ∀ id ∈ d.rejected, id ∈ ids

theorem Division.Of.first (h : Division.Of d ids) : d.first.Sublist ids :=
  (List.sublist_append_left _ _).trans h.kept

theorem Division.Of.branches (h : Division.Of d ids)
    {b : LineId × List LineId} (hb : b ∈ d.branches) : b.1 ∈ ids ∧ b.2.Sublist ids := by
  have hsub : (b.1 :: b.2).Sublist (branchIds d.branches) :=
    List.sublist_flatten_of_mem (List.mem_map_of_mem (f := fun b => b.1 :: b.2) hb)
  have hids := (hsub.trans (List.sublist_append_right _ _)).trans h.kept
  exact ⟨hids.subset List.mem_cons_self, (List.sublist_cons_self _ _).trans hids⟩

theorem Division.Of.cons (h : Division.Of d ids) (id : LineId) : Division.Of (d.cons id) (id :: ids) where
  kept := h.kept.cons_cons id
  rejected j hj := List.mem_cons_of_mem id (h.rejected j hj)

theorem divide_of (directive? : LineId → Option Directive) : ∀ (ids : List LineId) (depth : Nat) (complete : Bool),
      Division.Of (divide directive? depth complete ids) ids
  | [], _, _ => ⟨.slnil, fun _ h => by cases h⟩
  | id :: rest, depth, complete => by
    have ih := divide_of directive? rest
    unfold divide
    split
    · exact (ih _ _).cons id
    split
    · exact (ih _ _).cons id
    split
    · exact (ih _ _).cons id
    split
    · split
      · refine ⟨(ih _ _).kept.cons id, fun j hj => ?_⟩
        rcases List.mem_cons.mp hj with rfl | hj
        · exact List.mem_cons_self
        · exact ((ih _ _).cons id).rejected j hj
      · exact ⟨(ih _ _).kept.cons_cons id, ((ih _ _).cons id).rejected⟩
    · exact (ih _ _).cons id

theorem mem_arrangeBranches {arrange : Assembly → List LineId → List Item × Assembly} :
    ∀ {branches : List (LineId × List LineId)} {s : Assembly} {b : LineId × List Item},
      b ∈ (arrangeBranches arrange s branches).1 → ∃ body t, (b.1, body) ∈ branches ∧ b.2 = (arrange t body).1
  | [], _, _, h => by cases h
  | (header, body) :: rest, s, b, h => by
    rcases List.mem_cons.mp h with rfl | h
    · exact ⟨body, s, List.mem_cons_self, rfl⟩
    · obtain ⟨body', t, hmem, heq⟩ := mem_arrangeBranches h
      exact ⟨body', t, List.mem_cons_of_mem _ hmem, heq⟩

/-- Items that are made of lines, each once. -/
def MadeOf (items : List Item) (ids : List LineId) : Prop :=
  (Item.allLines items).Sublist ids ∧ ∀ item ∈ items, item.Proper (· ∈ ids)

theorem MadeOf.nodup {items : List Item} (h : MadeOf items ids) (hids : ids.Nodup) :
    (items.map Item.id).Nodup := ((Item.ids_sublist items).trans h.1).nodup hids

theorem MadeOf.lines (ids : List LineId) : MadeOf (ids.map Item.line) ids := by
  refine ⟨?_, fun item hitem => ?_⟩
  · rw [Item.allLines_map_line]
  · obtain ⟨id, hid, rfl⟩ := List.mem_map.mp hitem
    exact .line hid

theorem MadeOf.append {items items' : List Item} {ids' : List LineId} (h : MadeOf items ids)
    (h' : MadeOf items' ids') : MadeOf (items ++ items') (ids ++ ids') := by
  refine ⟨?_, fun item hitem => ?_⟩
  · rw [Item.allLines_append]
    exact h.1.append h'.1
  · rcases List.mem_append.mp hitem with hitem | hitem
    · exact (h.2 item hitem).mono fun _ hid => List.mem_append_left _ hid
    · exact (h'.2 item hitem).mono fun _ hid => List.mem_append_right _ hid

theorem branchLines_arrangeBranches {arrange : Assembly → List LineId → List Item × Assembly} (id : LineId) :
    ∀ {branches : List (LineId × List LineId)} (s : Assembly), (∀ b ∈ branches, ∀ s, MadeOf (arrange s b.2).1 b.2) →
      (Item.branchLines id (arrangeBranches arrange s branches).1).Sublist (branchIds branches)
  | [], _, _ => .slnil
  | (header, body) :: rest, s, h => by
    obtain ⟨hbody, hrest⟩ := List.forall_mem_cons.mp h
    have hlater := branchLines_arrangeBranches id (arrange s body).2 hrest
    have hheader : (if header = id then [] else [header]).Sublist [header] := by
      split
      · exact List.nil_sublist _
      · exact .refl _
    rw [arrangeBranches]
    simp only
    rw [Item.branchLines, Item.bodyLines]
    exact (hheader.append (hbody s).1).append hlater

theorem arrangeBlock_proper {arrange : Assembly → List LineId → List Item × Assembly}
    (harrange : ∀ s ids, ids.Nodup → MadeOf (arrange s ids).1 ids) (s : Assembly) (id : LineId)
    (d : Directive) {body : List LineId} (stop : LineId) (hbody : body.Nodup) :
    MadeOf [(arrangeBlock arrange s id d body stop).1] (id :: body) := by
  unfold arrangeBlock
  simp only
  split
  · have hdivision := divide_of (fun id => ((s.closeBlock stop).line id).directive?) body 0 false
    generalize divide (fun id => ((s.closeBlock stop).line id).directive?) 0 false body = division at hdivision ⊢
    -- the bodies of all branches are parts of the block
    have hbranch : ∀ b ∈ (id, division.first) :: division.branches, b.1 ∈ id :: body ∧ b.2.Sublist body := by
      intro b hb
      rcases List.mem_cons.mp hb with rfl | hb
      · exact ⟨List.mem_cons_self, hdivision.first⟩
      · exact ⟨List.mem_cons_of_mem id (hdivision.branches hb).1, (hdivision.branches hb).2⟩
    have hmade : ∀ b ∈ (arrangeBranches arrange ((s.closeBlock stop).rejectDividers division.rejected)
        ((id, division.first) :: division.branches)).1,
        b.1 ∈ id :: body ∧ ∃ ids, ids.Sublist body ∧ MadeOf b.2 ids := by
      intro b hb
      obtain ⟨ids, t, hmem, heq⟩ := mem_arrangeBranches hb
      have hsub := (hbranch _ hmem).2
      exact ⟨(hbranch _ hmem).1, ids, hsub, heq ▸ harrange t ids (hsub.nodup hbody)⟩
    have hlines : (Item.branchLines id (arrangeBranches arrange ((s.closeBlock stop).rejectDividers
        division.rejected) ((id, division.first) :: division.branches)).1).Sublist body := by
      rw [arrangeBranches]
      simp only
      rw [Item.branchLines, Item.bodyLines, if_pos rfl, List.nil_append]
      refine List.Sublist.trans (.append (harrange _ _ ?_).1 (branchLines_arrangeBranches id _ fun b hb t => ?_))
        hdivision.kept
      · exact (hbranch _ List.mem_cons_self).2.nodup hbody
      · exact harrange t b.2 ((hbranch b (List.mem_cons_of_mem _ hb)).2.nodup hbody)
    refine ⟨?_, fun item hitem => ?_⟩
    · rw [Item.allLines_singleton, Item.lines]
      exact hlines.cons_cons id
    rw [List.mem_singleton.mp hitem]
    refine .conditional List.mem_cons_self (fun b hb => (hmade b hb).1) (fun b hb => ?_) fun b hb item hitem => ?_
    · obtain ⟨_, ids, hsub, h⟩ := hmade b hb
      exact h.nodup (hsub.nodup hbody)
    · obtain ⟨_, ids, hsub, h⟩ := hmade b hb
      exact (h.2 item hitem).mono fun _ hid => List.mem_cons_of_mem id (hsub.subset hid)
  · exact (MadeOf.lines [id]).append (⟨List.nil_sublist body, fun _ h => by cases h⟩ : MadeOf [] body)

theorem arrangeWithin_proper : ∀ (bound : Nat) (s : Assembly) (ids : List LineId), ids.Nodup →
      MadeOf (arrangeWithin bound s ids).1 ids
  | 0, _, ids, _ => ⟨List.nil_sublist ids, fun _ h => by cases h⟩
  | _ + 1, _, [], _ => ⟨.slnil, fun _ h => by cases h⟩
  | bound + 1, s, id :: rest, hids => by
    have hrest := (List.nodup_cons.mp hids).2
    unfold arrangeWithin
    simp only
    split
    · rename_i part _ _
      split
      · split
        · exact .lines (id :: rest)
        rename_i body stop after hsplit
        have heq := splitAtCloser_eq hsplit
        rw [heq] at hrest ⊢
        have hbody : body.Nodup := hrest.of_append_left
        have hafter : after.Nodup := (List.nodup_cons.mp hrest.of_append_right).2
        have hblock := arrangeBlock_proper (arrangeWithin_proper bound) s id part.directive stop hbody
        have hlater := arrangeWithin_proper bound
          (arrangeBlock (arrangeWithin bound) s id part.directive body stop).2 after hafter
        -- the line that ends the block is no item
        have hstop : MadeOf [] [stop] := ⟨List.nil_sublist _, fun _ h => by cases h⟩
        exact hblock.append (hstop.append hlater)
      · exact (MadeOf.lines [id]).append (arrangeWithin_proper bound _ rest hrest)
    · exact (MadeOf.lines [id]).append (arrangeWithin_proper bound _ rest hrest)

theorem arrange_proper (s : Assembly) (h : ids.Nodup) :
    MadeOf (s.arrange ids).1 ids := arrangeWithin_proper ids.length s ids h

/-! ## Arranging is a run -/

namespace Runs

variable {n : Nat}

theorem finish (s : Assembly) (id : LineId) : Runs may s (s.mark id .finished) :=
  single (.mark id .finished fun h => by rcases h with h | h <;> cases h)

theorem checkArguments (s : Assembly) (id : LineId) : Runs may s (s.checkArguments id) := by
  unfold Assembly.checkArguments
  split
  · exact refl s
  simp only
  split
  · exact fail s id _ _
  · split
    · split
      · exact fail s id _ _
      · exact refl s
    · exact refl s

theorem checkLabel (s : Assembly) (id : LineId) : Runs may s (s.checkLabel id).2 := by
  unfold Assembly.checkLabel
  simp only
  split
  · split
    · exact refl s
    · exact fail s id _ _
  · exact refl s

theorem closeBlock (s : Assembly) (id : LineId) : Runs may s (s.closeBlock id) :=
  ((checkArguments s id).trans (checkLabel _ id)).trans (finish _ id)

theorem rejectDividers : ∀ (ids : List LineId) (s : Assembly), Runs may s (s.rejectDividers ids)
  | [], s => refl s
  | id :: ids, s => by
    refine trans ?_ (rejectDividers ids _)
    simp only
    split
    · exact fail s id _ _
    · exact refl s

theorem ignore : ∀ (ids : List LineId) {s : Assembly}, s.Failed →
    Runs may s (ids.foldl (fun s id => s.mark id .ignored) s)
  | [], s, _ => refl s
  | id :: ids, s, h =>
    (single (.mark id .ignored fun _ => .inl h)).trans (ignore ids (s := s.mark id .ignored) h)

theorem modifyBlock {id : LineId} {body : Line.CommandPart → Option (List LineId)} {closer : Option LineId}
    (hown : may.change id)
    (hrows : ∀ part, body part = part.body ∨ ∀ row ∈ (body part).getD [], row < s.lines.size)
    (hbody : ∀ part cells, (s.line id).kind = .command part → part.state = .group cells → body part = part.body) :
    Runs may s (s.modifyLine id fun l => l.modifyCommand fun part => { part with body := body part, closer }) := by
  refine modify hown (.modifyCommand (fun _ => rfl) (fun _ _ hc => .inl hc) (fun _ _ hsuits => hsuits)
    (fun part content hkind h => ?_) (fun _ _ hclaims => hclaims) hrows fun _ _ _ hitems => .inl hitems)
    (grows_modifyCommand fun _ _ => .inl rfl)
    (.sameState (fun _ => ⟨rfl, rfl⟩) hbody fun _ _ hread => .inl ⟨hread.cells, hread.lengths⟩)
  cases content with
  | bytes => exact h
  | rows =>
    obtain ⟨hgroup, ⟨cells, hstate⟩, hrows⟩ := h
    exact ⟨hgroup, ⟨cells, hstate⟩, (congrArg (Option.getD · []) (hbody part cells hkind hstate)).trans hrows⟩

theorem arrangeBranches {arrange : Assembly → List LineId → List Item × Assembly} :
    ∀ {branches : List (LineId × List LineId)} {s : Assembly}, (∀ b ∈ branches, Clear may s b.2) →
      (∀ b ∈ branches, ∀ s, Clear may s b.2 → Runs may s (arrange s b.2).2) →
      Runs may s (arrangeBranches arrange s branches).2
  | [], s, _, _ => refl s
  | (header, body) :: _, s, hclear, h =>
    (h (header, body) List.mem_cons_self s (hclear _ List.mem_cons_self)).seq fun hs hrun =>
      arrangeBranches (fun b hb => (hclear b (List.mem_cons_of_mem _ hb)).later hrun hs) fun b hb =>
        h b (List.mem_cons_of_mem _ hb)

theorem arrangeBlock {arrange : Assembly → List LineId → List Item × Assembly}
    {id stop : LineId} {d : Directive} {body : List LineId} (hclear : Clear may s (id :: body))
    (harrange : ∀ ids : List LineId, (∀ id ∈ ids, id ∈ body) → ∀ s, Clear may s ids → Runs may s (arrange s ids).2) :
    Runs may s (arrangeBlock arrange s id d body stop).2 := by
  have hown := (hclear id List.mem_cons_self).1
  refine (closeBlock s stop).seq fun hs hclose => ?_
  have hclosed := hclear.later hclose hs
  unfold Assembly.arrangeBlock
  simp only
  split
  · have hdivision := divide_of (fun id => ((s.closeBlock stop).line id).directive?) body 0 false
    generalize divide (fun id => ((s.closeBlock stop).line id).directive?) 0 false body = division at hdivision ⊢
    have hsub : ∀ b ∈ (id, division.first) :: division.branches, ∀ j ∈ b.2, j ∈ body := by
      intro b hb j hj
      rcases List.mem_cons.mp hb with rfl | hb
      · exact hdivision.first.subset hj
      · exact (hdivision.branches hb).2.subset hj
    refine (rejectDividers division.rejected _).seq fun hs hreject => ?_
    refine (arrangeBranches (fun b hb j hj => ?_) fun b hb => harrange b.2 (hsub b hb)).trans
      (modifyBlock hown (fun _ => .inl rfl) fun _ _ _ _ => rfl)
    exact hclosed.later hreject hs j (List.mem_cons_of_mem id (hsub b hb j hj))
  · refine modifyBlock hown (fun _ => .inr fun row hrow => ?_) fun part cells hkind hstate => ?_
    · exact (hclosed row (List.mem_cons_of_mem id hrow)).2.2.1
    · exact nomatch (hclosed id List.mem_cons_self).2.2.2.symm.trans (table_command hkind hstate)

theorem arrangeWithin : ∀ (bound : Nat) {s : Assembly} {ids : List LineId},
    Clear may s ids → Runs may s (arrangeWithin bound s ids).2
  | 0, s, _, _ => refl s
  | _ + 1, s, [], _ => refl s
  | bound + 1, s, id :: rest, hids => by
    obtain ⟨hid, hrest⟩ := List.forall_mem_cons.mp hids
    unfold Assembly.arrangeWithin
    simp only
    split
    · rename_i part _ _
      split
      · split
        · exact (fail s id _ _).trans (ignore rest (failed_fail s id _ _))
        rename_i body stop after hsplit
        have heq := splitAtCloser_eq hsplit
        rw [heq] at hrest
        have hbody : Clear may s body := fun j hj => hrest j (List.mem_append_left _ hj)
        have hblock : Runs may s (Assembly.arrangeBlock (Assembly.arrangeWithin bound) s id
            part.directive body stop).2 :=
          arrangeBlock (List.forall_mem_cons.mpr ⟨hid, hbody⟩) fun ids _ s hs => arrangeWithin bound hs
        refine hblock.seq fun hs hrun => arrangeWithin bound (Clear.later (fun j hj => hrest j ?_) hrun hs)
        exact List.mem_append_right _ (List.mem_cons_of_mem stop hj)
      · split
        · exact (fail s id _ _).seq fun hs hrun => arrangeWithin bound (Clear.later hrest hrun hs)
        · exact arrangeWithin bound hrest
    · exact arrangeWithin bound hrest

theorem arrange (h : Clear may s ids) : Runs may s (s.arrange ids).2 := arrangeWithin ids.length h

end Runs

end CrossAssembler.Assembly
