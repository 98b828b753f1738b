import CrossAssembler.Proofs.InPlace.Basic

/-!
# Analysis in place

Of all that is done to analyse lines only two things are more than work in place: a macro call gets lines of
its own, and so does an included file.

* `Kept.declareGroup` — the one place where labels are made whose text stands nowhere.
* `Kept.parseInstruction` — the expressions of an operand are parts of it.

Principal result: `Kept.parseWithin` — operands and arguments are read in place.
-/

namespace CrossAssembler.Assembly

variable {r : Regime} {s s' : Assembly} {id : LineId} {token : Token} {scope : ScopeId} {part : Line.CommandPart}

namespace Kept

section

variable (h : s.Kept r)
variable {row : LineId} {b : GroupBuilder}

include h

/-! ## Labels and constants -/

theorem modifyVariable (id : LineId) {f : Line.VariablePart → Line.VariablePart}
    (hf : ∀ part, (f part).name = part.name ∧ (f part).expression = part.expression) :
    Proceeds r s (s.modifyLine id fun l =>
      match l.kind with
      | .variable part => { l with kind := .variable (f part) }
      | _ => l) := by
  refine ⟨fun hp => (h.located hp).modifyVariable id hf, h.orderly.tend id ?_⟩
  split
  · exact .of_bare rfl rfl rfl
  · exact .refl _

theorem declareVariable (id : LineId) {part : Line.VariablePart} (hname : r.placed → part.name.Inside s.extent) :
    Proceeds r s (s.declareVariable id part) := by
  have hknown : ∀ {s' : Assembly} (label : Option LabelId), Proceeds r s s' → Proceeds r s (s'.modifyLine id fun l =>
      match l.kind with
      | .variable part => { l with kind := .variable { part with label } }
      | _ => l) := fun _ hstep =>
    hstep.andThen fun h => h.modifyVariable id (f := fun part => { part with label := _ }) fun _ => ⟨rfl, rfl⟩
  unfold Assembly.declareVariable
  simp only
  split
  · exact hknown _ h.refl
  split
  · rename_i label s1 heq
    obtain ⟨-, hdoc⟩ := h.defineDoc (fun hp => (hname hp).sited) (h.inUse id) heq (s.line id).comment
    exact hknown _ (hdoc label rfl).1
  · rename_i s1 heq
    exact hknown _ (h.defineDoc (fun hp => (hname hp).sited) (h.inUse id) heq none).1

theorem declareConstant (id : LineId) (hpart : r.placed → part.Placed s.extent) :
    Proceeds r s (s.declareConstant id part) := by
  unfold Assembly.declareConstant
  split
  · exact h.refl
  rename_i name rest harguments
  have hname : r.placed → name.span.Sited s.extent := fun hp =>
    ((hpart hp).arguments name (harguments ▸ List.mem_cons_self)).sited
  simp only
  split
  · rename_i label s1 heq
    obtain ⟨-, hdoc⟩ := h.defineDoc hname (h.inUse id) heq (s.line id).comment
    exact (hdoc label rfl).1.andThen fun h => h.setDirectiveState id (fun _ => trivial) rfl rfl
  · rename_i s1 heq
    exact (h.defineDoc hname (h.inUse id) heq none).1

/-! ## Enumerations -/

theorem defineEnumRow (id : LineId) {name : Token} (hname : r.placed → name.Inside s.extent)
    (hscope : r.known → s.symbols.InUse scope) {length : Option Token}
    (hlength : r.placed → ∀ t ∈ length, t.Inside s.extent) (doc : Option String) {result : Option EnumRow × Assembly}
    (hresult : (match s.defineLabel id name.withoutColon scope .defined false with
      | (some label, s1) => (some ⟨label, length, none⟩, s1.setDoc label doc)
      | (none, s1) => (none, s1)) = result) :
    Proceeds r s result.2 ∧ (r.placed → ∀ entry ∈ result.1, ∀ t ∈ entry.length, t.Inside result.2.extent) := by
  have htoken : r.placed → name.withoutColon.span.Sited s.extent := fun hp =>
    ((hname hp).part (Token.partOf_withoutColon name)).sited
  subst hresult
  split
  · rename_i label s1 heq
    obtain ⟨-, hdoc⟩ := h.defineDoc htoken hscope heq doc
    refine ⟨(hdoc label rfl).1, ?_⟩
    rintro hp _ ⟨⟩ t ht
    exact (hlength hp t ht).mono ((hdoc label rfl).1.le hp)
  · rename_i s1 heq
    exact ⟨(h.defineDoc htoken hscope heq none).1, fun _ => nofun⟩

theorem declareEnumRow (id : LineId) (hscope : r.known → s.symbols.InUse scope) (hrow : r.placed → row < s.lines.size) :
    Proceeds r s (s.declareEnumRow id scope row).2 ∧
      (r.placed → ∀ entry ∈ (s.declareEnumRow id scope row).1, ∀ t ∈ entry.length,
        t.Inside (s.declareEnumRow id scope row).2.extent) := by
  have hmark := h.mark row .finished
  have horigin := hmark.inside (h.origin hrow)
  have hparts : r.placed → ∀ t ∈ (s.line row).origin.splitTopLevel ',', t.Inside (s.mark row .finished).extent :=
    fun hp t ht => (horigin hp).part (.of_mem_splitTopLevel ht)
  unfold Assembly.declareEnumRow
  simp only
  split
  · rename_i name hsplit
    rw [hsplit] at hparts
    obtain ⟨hstep, hentry⟩ := hmark.kept.defineEnumRow id (fun hp => hparts hp name List.mem_cons_self)
      (hmark.inUse hscope) (fun _ t ht => absurd ht (Option.not_mem_none t)) (s.line row).comment rfl
    exact ⟨hmark.trans hstep, hentry⟩
  · rename_i name length hsplit
    rw [hsplit] at hparts
    have hlength : r.placed → ∀ t ∈ some length, t.Inside (s.mark row .finished).extent := by
      rintro hp _ ⟨⟩
      exact hparts hp length (List.mem_cons_of_mem _ List.mem_cons_self)
    obtain ⟨hstep, hentry⟩ := hmark.kept.defineEnumRow id (fun hp => hparts hp name List.mem_cons_self)
      (hmark.inUse hscope) hlength (s.line row).comment rfl
    exact ⟨hmark.trans hstep, hentry⟩
  · exact ⟨hmark.trans (hmark.kept.failAt id horigin _), fun _ => nofun⟩

theorem declareEnumRows (id : LineId) (hscope : r.known → s.symbols.InUse scope) {rows : List LineId}
    (hrows : r.placed → ∀ row ∈ rows, row < s.lines.size) :
    Proceeds r s (s.declareEnumRows id scope rows).2 ∧
      (r.placed → ∀ entry ∈ (s.declareEnumRows id scope rows).1, ∀ t ∈ entry.length,
        t.Inside (s.declareEnumRows id scope rows).2.extent) := by
  induction rows generalizing s with
  | nil => exact ⟨h.refl, fun _ => nofun⟩
  | cons row rows ih =>
    obtain ⟨hfirst, hentry⟩ := h.declareEnumRow id hscope fun hp => hrows hp row List.mem_cons_self
    obtain ⟨hlater, hentries⟩ := ih hfirst.kept (hfirst.inUse hscope) fun hp j hj =>
      hfirst.tends.size ▸ hrows hp j (List.mem_cons_of_mem _ hj)
    refine ⟨hfirst.trans hlater, fun hp entry hmem t ht => ?_⟩
    rcases List.mem_append.mp hmem with hmem | hmem
    · exact (hentry hp entry (Option.mem_toList.mp hmem) t ht).mono (hlater.le hp)
    · exact hentries hp entry hmem t ht

omit h in
theorem getD_body {e : Extent} (hpart : part.Placed e) : e.Ordered (part.body.getD []) := by
  cases hbody : part.body with
  | none => exact .nil e
  | some body => exact hpart.body body hbody

theorem declareEnumeration (id : LineId) (hpart : r.placed → part.Placed s.extent) :
    Proceeds r s (s.declareEnumeration id part) := by
  obtain ⟨hrows, hentries⟩ := h.declareEnumRows id (h.inUse id) fun hp => (getD_body (hpart hp)).lines
  exact hrows.trans (hrows.kept.setDirectiveState id hentries rfl rfl)

/-! ## Data groups -/

omit h in
/-- Whether a text is that of the label of a data group which stands above a line. -/
def OwnsRow (e : Extent) (text : String) (row : LineId) : Prop :=
  ∃ owner : Token, owner.text = text ∧ owner.NamesGroup e ∧ owner.Above (e.origin row)

omit h in
theorem OwnsRow.mono {e e' : Extent} {text : String} (h : OwnsRow e text row) (hrow : row < e.lines)
    (hle : e.Le e') : OwnsRow e' text row := by
  obtain ⟨owner, htext, hnames, habove⟩ := h
  exact ⟨owner, htext, hnames.mono hle, hle.origin row hrow ▸ habove⟩

omit h in
theorem ordered_body (h : s.Located) (hpart : (s.line id).command? = some part) :
    s.extent.Ordered (id :: part.body.getD []) := by
  have hbody := getD_body ((h.lines id).command hpart)
  refine ⟨List.forall_mem_cons.mpr ⟨lt_size_of_command hpart, hbody.lines⟩, List.pairwise_cons.mpr ⟨?_, hbody.order⟩⟩
  refine List.forall_mem_map.mpr ?_
  cases hlines : part.body with
  | none => nofun
  | some body => exact (h.lines id).below part hpart body hlines

omit h in
theorem cutAtFirst_eq {separator : Char} {n : Nesting} {cs before after : List Char}
    (h : cutAtFirst? separator n cs = some (before, after)) : cs = before ++ [separator] ++ after := by
  induction cs generalizing n before with
  | nil => cases h
  | cons c cs ih =>
    unfold cutAtFirst? at h
    split at h
    · rename_i hfree
      cases h
      rw [Bool.and_eq_true, beq_iff_eq] at hfree
      rw [hfree.2]
      rfl
    · obtain ⟨⟨before', after'⟩, hrest, heq⟩ := Option.map_eq_some_iff.mp h
      cases heq
      rw [ih hrest]
      rfl

omit h in
theorem partOf_splitRow (row : Token) : (∀ name ∈ (splitRow row).1, name.PartOf row) ∧ (splitRow row).2.PartOf row := by
  unfold splitRow
  split
  · rename_i before after hcut
    have htext := cutAtFirst_eq hcut
    refine ⟨?_, ?_⟩
    · rintro _ ⟨⟩
      rw [List.append_assoc] at htext
      exact (Token.partOf_trimmed _).trans (Token.partOf_place [] htext)
    · have hplace := Token.partOf_place (before ++ [':']) (htext.trans (List.append_nil _).symm)
      rw [Text.byteLength_append] at hplace
      exact (Token.partOf_trimmed _).trans hplace
  · exact ⟨nofun, .refl row⟩

theorem addCells (id : LineId) {origin : Token} (horigin : r.placed → origin.Inside s.extent) {tokens : List Token}
    (htokens : r.placed → ∀ t ∈ tokens, t.Inside s.extent)
    (hb : r.placed → ∀ cell ∈ b.cells, cell.token.Inside s.extent) (element : Nat) :
    Proceeds r s (s.addCells id origin b element tokens).2 ∧
      (r.placed → ∀ cell ∈ (s.addCells id origin b element tokens).1.cells,
        cell.token.Inside (s.addCells id origin b element tokens).2.extent) := by
  induction tokens generalizing s b element with
  | nil => exact ⟨h.refl, hb⟩
  | cons token tokens ih =>
    have hrest : r.placed → ∀ t ∈ tokens, t.Inside s.extent := fun hp t ht => htokens hp t (List.mem_cons_of_mem _ ht)
    unfold Assembly.addCells
    split
    · have hfail := h.failAt id horigin "empty cell in data row"
      obtain ⟨hlater, hcells⟩ := ih hfail.kept (hfail.inside horigin) (fun hp t ht => (hrest hp t ht).mono (hfail.le hp))
        (fun hp cell hcell => (hb hp cell hcell).mono (hfail.le hp)) (element + 1)
      exact ⟨hfail.trans hlater, hcells⟩
    · have hcells : r.placed → ∀ cell ∈ (⟨token, none⟩ :: b.cells : List GroupCell), cell.token.Inside s.extent :=
        fun hp => List.forall_mem_cons.mpr ⟨htokens hp token List.mem_cons_self, hb hp⟩
      exact ih h horigin hrest (b := ⟨_, ⟨token, none⟩ :: b.cells⟩) hcells (element + 1)

theorem defineRow (id : LineId) (htoken : r.placed → token.span.Sited s.extent)
    (hscope : r.known → s.symbols.InUse scope) (doc : Option String) (value : Option Value) :
    Proceeds r s (match s.defineLabel id token scope .defined false with
      | (some label, s1) => (s1.setDoc label doc).setLabelValue label value
      | (none, s1) => s1) := by
  split
  · rename_i label s1 heq
    obtain ⟨hdoc, hlabel⟩ := (h.defineDoc htoken hscope heq doc).2 label rfl
    exact hdoc.trans (hdoc.kept.setLabelValue hlabel value)
  · rename_i s1 heq
    exact (h.defineDoc htoken hscope heq none).1

/-- A row makes a label at its name. In a group that has a label, the label of the row has a text that stands
nowhere. -/
theorem declareRow (id : LineId) {owner : Option String} (hscope : r.known → s.symbols.InUse scope)
    (howner : r.placed → ∀ text ∈ owner, OwnsRow s.extent text row)
    (hrow : r.placed → row < s.lines.size) (hb : r.placed → ∀ cell ∈ b.cells, cell.token.Inside s.extent) :
    Proceeds r s (s.declareRow id owner scope b row).2 ∧
      (r.placed → ∀ cell ∈ (s.declareRow id owner scope b row).1.cells,
        cell.token.Inside (s.declareRow id owner scope b row).2.extent) := by
  have hmark := h.mark row .finished
  obtain ⟨hname, hcells⟩ := partOf_splitRow (s.line row).origin
  -- the cells are added after the label has been made
  have hadd : ∀ made : GroupBuilder × Assembly, Proceeds r s made.2 ∧ made.1.cells = b.cells →
      ∀ result, result = made.2.addCells id (s.line row).origin made.1 b.cells.length
        ((splitRow (s.line row).origin).2.splitTopLevel ',') →
      Proceeds r s result.2 ∧ (r.placed → ∀ cell ∈ result.1.cells, cell.token.Inside result.2.extent) := by
    rintro made ⟨hstep, hmade⟩ _ rfl
    have hrow' := hstep.inside (h.origin hrow)
    obtain ⟨hlater, hall⟩ := hstep.kept.addCells id hrow'
      (fun hp t ht => ((hrow' hp).part hcells).part (.of_mem_splitTopLevel ht))
      (fun hp cell hcell => (hb hp cell (hmade ▸ hcell)).mono (hstep.le hp)) b.cells.length
    exact ⟨hstep.trans hlater, hall⟩
  refine hadd _ ?_ _ rfl
  split
  · exact ⟨hmark, rfl⟩
  rename_i name hsplit
  refine ⟨hmark.trans (hmark.kept.defineRow id (fun hp => ?_) (hmark.inUse hscope) (s.line row).comment _), rfl⟩
  cases owner with
  | none => exact ((hmark.inside (h.origin hrow) hp).part (hname name hsplit)).sited
  | some text =>
    obtain ⟨t, rfl, ht, habove⟩ := howner hp text rfl
    exact .inr ⟨t, _, name, ht.mono (hmark.le hp), ((h.located hp).whole row (hrow hp)).mono (hmark.le hp), habove,
      hsplit, rfl⟩

theorem declareRows (id : LineId) {owner : Option String} (hscope : r.known → s.symbols.InUse scope)
    {rows : List LineId} (howner : r.placed → ∀ row ∈ rows, ∀ text ∈ owner, OwnsRow s.extent text row)
    (hrows : r.placed → ∀ row ∈ rows, row < s.lines.size)
    (hb : r.placed → ∀ cell ∈ b.cells, cell.token.Inside s.extent) :
    Proceeds r s (s.declareRows id owner scope b rows).2 ∧
      (r.placed → ∀ cell ∈ (s.declareRows id owner scope b rows).1.cells,
        cell.token.Inside (s.declareRows id owner scope b rows).2.extent) := by
  induction rows generalizing s b with
  | nil => exact ⟨h.refl, hb⟩
  | cons row rows ih =>
    have hfirst := h.declareRow id hscope (fun hp => howner hp row List.mem_cons_self)
      (fun hp => hrows hp row List.mem_cons_self) hb
    rw [Assembly.declareRows]
    generalize s.declareRow id owner scope b row = result at hfirst ⊢
    obtain ⟨b', s'⟩ := result
    obtain ⟨hstep, hcells⟩ := hfirst
    have hrest : r.placed → ∀ j ∈ rows, j < s.lines.size := fun hp j hj => hrows hp j (List.mem_cons_of_mem _ hj)
    obtain ⟨hlater, hall⟩ := ih hstep.kept (hstep.inUse hscope) (fun hp j hj text htext =>
        (howner hp j (List.mem_cons_of_mem _ hj) text htext).mono (hrest hp j hj) (hstep.le hp))
      (fun hp j hj => hstep.tends.size ▸ hrest hp j hj) hcells
    exact ⟨hstep.trans hlater, hall⟩

theorem declareGroup (id : LineId) (hrows : r.placed → s.extent.Ordered (id :: part.body.getD []))
    (hgroup : r.placed → ∃ d, s.directives id = some d ∧ d.isGroup = true) :
    Proceeds r s (s.declareGroup id part) := by
  unfold Assembly.declareGroup
  simp only
  generalize howner : ((s.line id).label.filter fun label =>
    NameScope.ofName? label.text != some .nameless).map (fun label => label.text) = owner
  have howns : r.placed → ∀ row ∈ part.body.getD [], ∀ text ∈ owner, OwnsRow s.extent text row := by
    intro hp row hrow text htext
    obtain ⟨d, hd, hisGroup⟩ := hgroup hp
    obtain ⟨part', hpart', rfl⟩ := Option.map_eq_some_iff.mp hd
    rw [← howner] at htext
    obtain ⟨label, hlabel, htext⟩ := Option.map_eq_some_iff.mp htext
    have hmem : label ∈ (s.line id).label := (Option.filter_eq_some_iff.mp hlabel).1
    obtain ⟨hnames, hfront⟩ := ((h.located hp).lines id).owner part' hpart' hisGroup label hmem
    obtain ⟨hsource, hline⟩ := (hrows hp).above row hrow
    exact ⟨label, htext, hnames, hfront.source.trans hsource, Nat.lt_of_le_of_lt hfront.line.le hline⟩
  have hstart : r.placed → ∀ cell ∈ (⟨.empty (owner.getD "") (s.line id).origin.source, []⟩ : GroupBuilder).cells,
      cell.token.Inside s.extent := fun _ => nofun
  have hdeclared := h.declareRows id (h.inUse id) howns (fun hp => (List.forall_mem_cons.mp (hrows hp).lines).2) hstart
  generalize s.declareRows id owner (s.line id).scope _ (part.body.getD []) = result at hdeclared ⊢
  obtain ⟨b, s'⟩ := result
  obtain ⟨hstep, hcells⟩ := hdeclared
  have hreverse : r.placed → ∀ cell ∈ b.cells.reverse, cell.token.Inside s'.extent := fun hp cell hcell =>
    hcells hp cell (List.mem_reverse.mp hcell)
  split
  · have hadd : Proceeds r s' { s' with symbols := s'.symbols.addGroup b.group } :=
      ⟨fun hp => (hstep.onward hp).located.sameLabels ((hstep.onward hp).located.symbols.addGroup b.group),
        hstep.tends.orderly.withSymbols fun _ => .addGroup _ b.group⟩
    exact (hstep.trans hadd).trans (hadd.kept.setDirectiveState id
      (fun hp cell hcell => (hreverse hp cell hcell).mono (hadd.le hp)) rfl rfl)
  · exact hstep.trans (hstep.kept.setDirectiveState id hreverse rfl rfl)

/-! ## Macros -/

theorem checkParameters (id : LineId) (seen : List String) {tokens : List Token}
    (htokens : r.placed → ∀ t ∈ tokens, t.Inside s.extent) : Proceeds r s (s.checkParameters id seen tokens).2 := by
  induction tokens generalizing seen with
  | nil => exact h.refl
  | cons token tokens ih =>
    have hfirst : r.placed → token.Inside s.extent := fun hp => htokens hp token List.mem_cons_self
    unfold Assembly.checkParameters
    split
    · exact h.failAt id hfirst _
    · split
      · exact h.failAt id hfirst _
      · exact ih (token.text :: seen) fun hp t ht => htokens hp t (List.mem_cons_of_mem _ ht)

/-- A parameter fits behind the beginning of the name of its macro, since it stands after it. -/
theorem declareMacro (id : LineId) (hdirective : r.placed → part.directive = .macroBlock)
    (hpart : r.placed → part.Placed s.extent) : Proceeds r s (s.declareMacro id part) := by
  unfold Assembly.declareMacro
  split
  · exact h.refl
  rename_i name parameters harguments
  have hname : r.placed → name.Inside s.extent := fun hp =>
    (hpart hp).arguments name (harguments ▸ List.mem_cons_self)
  have hparameters : r.placed → ∀ t ∈ parameters, t.Inside s.extent := fun hp t ht =>
    (hpart hp).arguments t (harguments ▸ List.mem_cons_of_mem _ ht)
  split
  · exact h.failAt id hname _
  have hcheck := h.checkParameters id [] hparameters
  split
  · rename_i s1 heq
    rw [heq] at hcheck
    exact hcheck
  rename_i s1 heq
  rw [heq] at hcheck
  have hplaced : r.placed → ∀ m : MacroDefinition, m.token = name →
      m.parameters = parameters.map (fun p => p.text) → m.body = part.body.getD [] → m.Placed s1.extent := by
    rintro hp m rfl hm hbody
    refine ⟨hcheck.inside hname hp, hm ▸ fun text htext => ?_, hbody ▸ (getD_body (hpart hp)).mono (hcheck.le hp)⟩
    obtain ⟨p, hmem, rfl⟩ := List.mem_map.mp htext
    obtain ⟨hsource, hoffset⟩ := (hpart hp).orders (hdirective hp) _ parameters harguments p hmem
    exact ((hparameters hp p hmem).mono (hcheck.le hp)).of_le hsource.symm (Nat.add_le_add_right hoffset _)
  simp only
  generalize hm : MacroDefinition.mk _ _ _ _ _ = m
  have hdefine := fun hp => (hcheck.onward hp).located.symbols.defineMacro
    (hplaced hp m (by rw [← hm]) (by rw [← hm]) (by rw [← hm]))
  split
  · rename_i symbols hok
    rw [hok] at hdefine
    exact hcheck.trans ⟨fun hp => (hcheck.onward hp).located.sameLabels (hdefine hp),
      hcheck.tends.orderly.withSymbols fun _ => .defineMacro hok⟩
  · rename_i e herror
    rw [herror] at hdefine
    exact hcheck.trans
      ⟨fun hp => (hcheck.onward hp).located.symbolError id (hdefine hp) (hcheck.inside hname hp).sited,
        hcheck.tends.orderly.symbolError id _ _⟩

theorem defineParameters (id : LineId) (hscope : r.known → s.symbols.InUse scope) {names : List String}
    (hnames : r.placed → ∀ name ∈ names, ({ token with text := name } : Token).Inside s.extent) :
    Proceeds r s (s.defineParameters id scope token names).2 := by
  induction names generalizing s with
  | nil => exact h.refl
  | cons name names ih =>
    have hsited : r.placed → ({ token with text := name } : Token).span.Sited s.extent :=
      fun hp => (hnames hp name List.mem_cons_self).sited
    obtain ⟨hdefine, -⟩ := h.defineLabel id hsited hscope .parameter false
    unfold Assembly.defineParameters
    split
    · rename_i s1 heq
      rw [heq] at hdefine
      exact hdefine
    rename_i label s1 heq
    rw [heq] at hdefine
    have hlater := hdefine.trans (ih hdefine.kept (hdefine.inUse hscope) fun hp n hn =>
      (hnames hp n (List.mem_cons_of_mem _ hn)).mono (hdefine.le hp))
    split
    · rename_i s2 heq'
      rw [heq'] at hlater
      exact hlater
    · rename_i labels s2 heq'
      rw [heq'] at hlater
      exact hlater

/-! ## Files -/

theorem fileArgument (id : LineId) (hpart : r.placed → part.Placed s.extent) :
    Proceeds r s (s.fileArgument id part).2 := by
  unfold Assembly.fileArgument
  split
  · exact h.refl
  rename_i token rest harguments
  have htoken : r.placed → token.Inside s.extent := fun hp =>
    (hpart hp).arguments token (harguments ▸ List.mem_cons_self)
  have hstep := h.parseExpression id htoken
  split
  · rename_i s1 heq
    rw [heq] at hstep
    exact hstep
  · rename_i e s1 heq
    rw [heq] at hstep
    split
    · exact hstep
    · exact hstep.trans (hstep.kept.failAt id (hstep.inside htoken) _)

theorem firstFile (paths : List Path) : Proceeds r s (s.firstFile paths).2 := by
  induction paths generalizing s with
  | nil => exact h.refl
  | cons path paths ih =>
    have hstep : Proceeds r s { s with lookups := path :: s.lookups } :=
      h.around rfl rfl rfl rfl rfl rfl rfl rfl rfl rfl rfl
    unfold Assembly.firstFile
    simp only
    split
    · exact hstep
    · exact hstep.trans (ih hstep.kept)

theorem locate (hid : r.placed → id < s.lines.size) (name : String) : Proceeds r s (s.locate id name).2 := by
  unfold Assembly.locate
  simp only
  generalize (_ :: s.settings.searchFolders.map fun folder => folder.join name) = paths
  have hfirst := h.firstFile paths
  split
  · rename_i found s1 heq
    rw [heq] at hfirst
    exact hfirst
  · rename_i s1 heq
    rw [heq] at hfirst
    exact hfirst.trans (hfirst.kept.failAt id (hfirst.inside (h.origin hid)) _)

theorem noteReading (path : Path) : Proceeds r s (s.noteReading path) := by
  unfold Assembly.noteReading
  split
  · split
    · exact h.around rfl rfl rfl rfl rfl rfl rfl rfl rfl rfl rfl
    · exact h.refl
  · exact h.refl

theorem checkPlacement (hid : r.placed → id < s.lines.size) (d : Directive) :
    Proceeds r s (s.checkPlacement id d).2 := by
  unfold Assembly.checkPlacement
  split
  · exact h.failAt id (h.origin hid) _
  · exact h.checkLabel id

/-! ## Operands and arguments -/

theorem parseSlices (id : LineId) {operand : Token} (hoperand : r.placed → operand.Inside s.extent)
    {slices : List (Nat × Nat)} (hslices : ∀ range ∈ slices, range.1 ≤ operand.text.utf8ByteSize) :
    Proceeds r s (s.parseSlices id operand slices).2 ∧
      (r.placed → ∀ es ∈ (s.parseSlices id operand slices).1, ∀ x ∈ es,
        x.1.Inside (s.parseSlices id operand slices).2.extent) := by
  induction slices generalizing s with
  | nil =>
    refine ⟨h.refl, ?_⟩
    rintro - _ ⟨⟩
    nofun
  | cons range slices ih =>
    obtain ⟨start, stop⟩ := range
    obtain ⟨hstart, hrest⟩ := List.forall_mem_cons.mp hslices
    have htoken : r.placed → (operand.slice start stop).trimmed.Inside s.extent := fun hp =>
      ((hoperand hp).slice hstart stop).trimmed
    have hparse := h.parseExpression id htoken
    unfold Assembly.parseSlices
    simp only
    split
    · rename_i s1 heq
      rw [heq] at hparse
      exact ⟨hparse, fun _ => nofun⟩
    rename_i e s1 heq
    rw [heq] at hparse
    have hlater := ih hparse.kept (hparse.inside hoperand) hrest
    split
    · rename_i s2 heq'
      rw [heq'] at hlater
      exact ⟨hparse.trans hlater.1, fun _ => nofun⟩
    · rename_i es s2 heq'
      rw [heq'] at hlater
      refine ⟨hparse.trans hlater.1, ?_⟩
      rintro hp _ ⟨⟩
      exact List.forall_mem_cons.mpr ⟨(hparse.trans hlater.1).inside htoken hp, hlater.2 hp es rfl⟩

theorem modifyInstruction (id : LineId) {f : Line.InstructionPart → Line.InstructionPart}
    (hf : ∀ part, (f part).mnemonic = part.mnemonic ∧ (f part).operand = part.operand)
    (hmatched : r.placed → ∀ part, (s.line id).kind = .instruction part →
      (Line.Kind.instruction (f part)).Placed s.extent) :
    Proceeds r s (s.modifyLine id fun l =>
      match l.kind with
      | .instruction part => { l with kind := .instruction (f part) }
      | _ => l) := by
  refine ⟨fun hp => (h.located hp).modifyInstruction id hf (hmatched hp), h.orderly.tend id ?_⟩
  split
  · exact .of_bare rfl rfl rfl
  · exact .refl _

theorem parseInstruction (id : LineId) {part : Line.InstructionPart}
    (hmnemonic : r.placed → part.mnemonic.Inside s.extent) (hoperand : r.placed → part.operand.Inside s.extent) :
    Proceeds r s (s.parseInstruction id part) := by
  unfold Assembly.parseInstruction
  split
  · refine h.fail id (fun hp => ?_) _
    split
    · exact (hmnemonic hp).sited
    · exact (hoperand hp).sited
  rename_i form slices hmatch
  obtain ⟨hparse, hexpressions⟩ := h.parseSlices id hoperand (InstructionSet.start_le_of_matchOperand hmatch)
  split
  · rename_i s1 heq
    rw [heq] at hparse
    exact hparse
  · rename_i expressions s1 heq
    rw [heq] at hparse hexpressions
    refine hparse.trans (hparse.kept.modifyInstruction id
      (f := fun part => { part with matched := some ⟨form, expressions⟩ }) (fun _ => ⟨rfl, rfl⟩) fun hp _ _ => ?_)
    rintro _ ⟨⟩
    exact hexpressions hp expressions rfl

theorem parseVariable (id : LineId) {part : Line.VariablePart}
    (hexpression : r.placed → part.expression.Inside s.extent) : Proceeds r s (s.parseVariable id part) :=
  (h.parseExpression id hexpression).andThen fun h =>
    h.modifyVariable id (f := fun part => { part with parsed := _ }) fun _ => ⟨rfl, rfl⟩

theorem parseEnumRows (id : LineId) {rows : List EnumRow}
    (hrows : r.placed → ∀ row ∈ rows, ∀ t ∈ row.length, t.Inside s.extent) :
    Proceeds r s (s.parseEnumRows id rows).2 ∧ (r.placed → ∀ row ∈ (s.parseEnumRows id rows).1, ∀ t ∈ row.length,
      t.Inside (s.parseEnumRows id rows).2.extent) := by
  induction rows generalizing s with
  | nil => exact ⟨h.refl, fun _ => nofun⟩
  | cons row rows ih =>
    have hlater : ∀ parsed : Option Expression × Assembly, Proceeds r s parsed.2 →
        Proceeds r s (parsed.2.parseEnumRows id rows).2 ∧
          (r.placed → ∀ row' ∈ { row with expression := parsed.1 } :: (parsed.2.parseEnumRows id rows).1,
            ∀ t ∈ row'.length, t.Inside (parsed.2.parseEnumRows id rows).2.extent) := by
      intro parsed hparse
      obtain ⟨hlater, hall⟩ := ih hparse.kept fun hp row' hrow' t ht =>
        (hrows hp row' (List.mem_cons_of_mem _ hrow') t ht).mono (hparse.le hp)
      have hboth := hparse.trans hlater
      refine ⟨hboth, fun hp => List.forall_mem_cons.mpr ⟨fun t ht => ?_, hall hp⟩⟩
      exact (hrows hp row List.mem_cons_self t ht).mono (hboth.le hp)
    unfold Assembly.parseEnumRows
    simp only
    split
    · rename_i token hlength
      exact hlater _ (h.parseExpression id fun hp => hrows hp row List.mem_cons_self token hlength)
    · exact hlater (none, s) h.refl

theorem parseEnumeration (id : LineId) : Proceeds r s (s.parseEnumeration id) := by
  have harguments := h.parseArguments id 0
  have hstate := fun hp => (harguments.onward hp).located.directiveState id
  unfold Assembly.parseEnumeration
  simp only
  split
  · rename_i rows heq
    rw [heq] at hstate
    obtain ⟨hrows, hall⟩ := harguments.kept.parseEnumRows id hstate
    exact (harguments.trans hrows).trans (hrows.kept.setDirectiveState id hall rfl rfl)
  · exact harguments

theorem parseCells (id : LineId) {cells : List GroupCell}
    (hcells : r.placed → ∀ cell ∈ cells, cell.token.Inside s.extent) :
    Proceeds r s (s.parseCells id cells).2 ∧
      (r.placed → ∀ cell ∈ (s.parseCells id cells).1, cell.token.Inside (s.parseCells id cells).2.extent) := by
  induction cells generalizing s with
  | nil => exact ⟨h.refl, fun _ => nofun⟩
  | cons cell cells ih =>
    have hcell : r.placed → cell.token.Inside s.extent := fun hp => hcells hp cell List.mem_cons_self
    have hparse := h.parseExpression id hcell
    obtain ⟨hlater, hall⟩ := ih hparse.kept fun hp c hc =>
      (hcells hp c (List.mem_cons_of_mem _ hc)).mono (hparse.le hp)
    have hboth := hparse.trans hlater
    exact ⟨hboth, fun hp => List.forall_mem_cons.mpr ⟨hboth.inside hcell hp, hall hp⟩⟩

theorem parseGroup (id : LineId) : Proceeds r s (s.parseGroup id) := by
  have hstate := fun hp => (h.located hp).directiveState id
  unfold Assembly.parseGroup
  split
  · rename_i cells heq
    rw [heq] at hstate
    obtain ⟨hcells, hall⟩ := h.parseCells id hstate
    exact hcells.trans (hcells.kept.setDirectiveState id hall rfl rfl)
  · exact h.refl

theorem parseHex (id : LineId) (hpart : r.placed → part.Placed s.extent) : Proceeds r s (s.parseHex id part) := by
  unfold Assembly.parseHex
  split
  · exact h.refl
  rename_i argument rest harguments
  split
  · exact h.setDirectiveState id (fun _ => trivial) rfl rfl
  rename_i start group hgroups
  have hstop := stop_le_of_readHex hgroups
  rw [Text.byteLength_toList] at hstop
  refine h.failAt id (fun hp => ?_) _
  refine ((hpart hp).arguments argument (harguments ▸ List.mem_cons_self)).of_le rfl ?_
  change argument.offset + start + (String.ofList group).utf8ByteSize ≤ _
  rw [Text.utf8ByteSize_ofList, Nat.add_assoc]
  exact Nat.add_le_add_left hstop _

theorem parseBinary (hid : r.placed → id < s.lines.size) (hpart : r.placed → part.Placed s.extent) :
    Proceeds r s (s.parseBinary id part) := by
  have hfile := h.fileArgument id hpart
  unfold Assembly.parseBinary
  split
  · rename_i s1 heq
    rw [heq] at hfile
    exact hfile
  rename_i name s1 heq
  rw [heq] at hfile
  have hstep := hfile.andThen fun h => h.parseArguments id 1
  have hlocate := hstep.trans (hstep.kept.locate (hstep.lt hid) name)
  split
  · rename_i s2 heq'
    rw [heq'] at hlocate
    exact hlocate
  · rename_i path data s2 heq'
    rw [heq'] at hlocate
    exact (hlocate.andThen fun h => h.noteReading path).andThen fun h =>
      h.setDirectiveState id (fun _ => trivial) rfl rfl

/-! ## Conditionals -/

theorem parseHeader (header : LineId) : Proceeds r s (s.parseHeader header) := by
  unfold Assembly.parseHeader
  split
  · exact h.refl
  rename_i part hpart
  have hname : ∀ name rest message, part.arguments = name :: rest →
      Proceeds r s (if isPlainName name.text then s else s.fail header name.span message) := by
    intro name rest message harguments
    split
    · exact h.refl
    · exact h.failAt header (fun hp =>
        (((h.located hp).lines header).command hpart).arguments name (harguments ▸ List.mem_cons_self)) message
  split
  · exact h.parseArguments header 0
  · exact h.parseArguments header 0
  · split
    · exact h.refl
    · rename_i name rest harguments
      exact hname name rest _ harguments
  · split
    · exact h.refl
    · rename_i name rest harguments
      exact hname name rest _ harguments
  · exact h.refl

theorem parseHeaders (id : LineId) (headers : List LineId) : Proceeds r s (s.parseHeaders id headers) := by
  refine foldl (fun s header h => ?_) h headers
  split
  · split
    · exact h.refl
    · exact h.parseHeader header
  · have hstep := (h.checkArguments header).andThen fun h => h.checkLabel header
    simp only
    split
    · exact hstep
    · exact (hstep.andThen fun h => h.parseHeader header).andThen fun h => h.mark header .finished

theorem parseConditional (id : LineId) (headers : List LineId) : Proceeds r s (s.parseConditional id headers) := by
  have hheaders := h.parseHeaders id headers
  have hempty : ∀ labels ∈ headers.map fun _ => ([] : List LabelId), labels = [] := fun labels hlabels =>
    ((List.mem_map.mp hlabels).choose_spec.2).symm
  have hset : ∀ s', Proceeds r s s' → Proceeds r s (s'.setDirectiveState id (.branches
      { active := none, activated := headers.map fun _ => false, bound := headers.map fun _ => [] })) := by
    refine fun s' hstep => hstep.trans (hstep.kept.setDirectiveState id (fun _ labels hlabels => ?_) rfl ?_)
    · rw [hempty labels hlabels]
      nofun
    · exact List.flatten_eq_nil_iff.mpr hempty
  unfold Assembly.parseConditional
  simp only
  split
  · exact hset _ (hheaders.andThen fun h => h.mark id .error)
  · exact hset _ hheaders

end

/-! ## Lines -/

theorem parseCommand {parse : Assembly → List Item → Assembly} (hparse : InPlace r parse) (h : s.Kept r) (item : Item)
    (hpart : (s.line item.id).command? = some part) : Proceeds r s (parseCommand parse s item part) := by
  have hplaced : r.placed → part.Placed s.extent := fun hp => ((h.located hp).lines item.id).command hpart
  unfold Assembly.parseCommand
  simp only
  split
  all_goals first
    | exact h.parseArguments item.id _
    | exact h.parseEnumeration item.id
    | exact h.parseGroup item.id
    | exact h.parseConditional item.id _
    | exact h.parseBinary (fun _ => lt_size_of_command hpart) hplaced
    | exact h.parseHex item.id hplaced
    | exact h.refl
    | skip
  split
  · exact hparse s _ h
  · exact h.refl

theorem readCall (h : s.Kept r) (id : LineId) (expressions : List (Option Expression)) :
    Proceeds r s (s.modifyLine id fun l =>
      match l.kind with
      | .call part => { l with kind := .call { part with expressions } }
      | _ => l) := by
  refine ⟨fun hp => (h.located hp).modifyCall id (f := fun part => { part with expressions }) fun _ => ⟨rfl, rfl⟩,
    h.orderly.tend id ?_⟩
  split
  · rename_i part hpart
    refine ⟨rfl, ?_, List.nil_subset _⟩
    rw [Line.nested, Line.nested, hpart]
    exact List.Subset.refl _
  · exact .refl _

theorem parseCall {parse : Assembly → List Item → Assembly} (hparse : InPlace r parse) (h : s.Kept r) (id : LineId)
    {part : Line.CallPart} (harguments : r.placed → ∀ t ∈ part.arguments, t.Inside s.extent) :
    Proceeds r s (parseCall parse s id part) := by
  have hstep := (h.parseExpressions id harguments).andThen fun h =>
    h.readCall id (s.parseExpressions id part.arguments).1
  unfold Assembly.parseCall
  simp only
  split
  · exact hstep.trans (hparse _ _ hstep.kept)
  · exact hstep

theorem parseItem {calls files : Assembly → List Item → Assembly} (hcalls : InPlace r calls) (hfiles : InPlace r files)
    (h : s.Kept r) (item : Item) : Proceeds r s (parseItem calls files s item) := by
  unfold Assembly.parseItem
  simp only
  split
  · exact h.refl
  have htokens : r.placed → ∀ t ∈ (s.line item.id).kind.tokens, t.Inside s.extent := fun hp =>
    ((h.located hp).lines item.id).tokens
  have hkind : ∀ s1, Proceeds r s s1 → Proceeds r s (s1.mark item.id .finished) := fun s1 hstep =>
    hstep.andThen fun h => h.mark item.id .finished
  refine hkind _ ?_
  split
  · rename_i part hpart
    rw [hpart] at htokens
    exact h.parseInstruction item.id (fun hp => htokens hp _ List.mem_cons_self)
      fun hp => htokens hp _ (List.mem_cons_of_mem _ List.mem_cons_self)
  · rename_i part hpart
    rw [hpart] at htokens
    exact h.parseVariable item.id fun hp => htokens hp _ (List.mem_cons_of_mem _ List.mem_cons_self)
  · rename_i part hpart
    refine parseCommand hfiles h item ?_
    rw [Line.command?, hpart]
  · rename_i part hpart
    rw [hpart] at htokens
    exact parseCall hcalls h item.id fun hp t ht => htokens hp t (List.mem_cons_of_mem _ ht)
  · exact h.refl
  · exact h.refl

theorem parseWithin (b : Budget) : InPlace r (parseWithin b) := by
  induction b with
  | spent => exact fun s _ h => h.refl
  | left calls files ihcalls ihfiles =>
    intro s items h
    unfold Assembly.parseWithin
    exact unlessStopped (fun s (item : Item) h => parseItem ihcalls ihfiles h item) h items

end Kept

end CrossAssembler.Assembly
