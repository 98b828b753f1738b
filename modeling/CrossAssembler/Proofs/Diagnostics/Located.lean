import CrossAssembler.Proofs.Diagnostics.Places

/-!
# Steps that keep everything in its place

Principal results: `Located.fail`, `Located.modifyLine`, `Located.defineLabel` and `Located.loadSource` — what the
steps do that all work is made of.
-/

namespace CrossAssembler

/-- All places a diagnostic points to. -/
def Diagnostic.spans (d : Diagnostic) : List Span := d.primary :: d.labels.map Prod.fst

namespace Assembly

variable {s s' s'' : Assembly} {id : LineId}

/-- The sources, and what lines and labels there are. -/
def extent (s : Assembly) : Extent where
  set := s.instructions
  sources := s.sources
  lines := s.lines.size
  origin id := (s.line id).origin
  labels := s.symbols.labels.size

/-- Whether everything that can be reported lies in the texts of the sources, and so does everything that has
been. -/
structure Located (s : Assembly) : Prop where
  freeLines : s.lines.free = []
  freeSources : s.sources.free = []
  lines : ∀ id, (s.line id).Placed s.extent
  whole : ∀ id < s.lines.size, (s.line id).origin.IsLine s.extent
  symbols : s.symbols.Placed s.extent
  recorders : ∀ ids ∈ s.recorders, ∀ id ∈ ids, id < s.symbols.labels.size
  units : ∀ u ∈ s.units, s.extent.Ordered (u.items.map Item.id)
  unsettled : ∀ sp ∈ s.progress.unsettled, sp.Sited s.extent
  diagnostics : ∀ d ∈ s.diagnostics, ∀ sp ∈ d.spans, sp.Sited s.extent

/-- A step after which everything is located, and which only adds to sources, lines and labels. A line that is a
directive stays one. -/
structure Onward (s s' : Assembly) : Prop where
  located : s'.Located
  le : s.extent.Le s'.extent
  directives : ∀ id d, s.directives id = some d → s'.directives id = some d

theorem Onward.trans (h : Onward s s') (h' : Onward s' s'') : Onward s s'' :=
  ⟨h'.located, h.le.trans h'.le, fun id d hd => h'.directives id d (h.directives id d hd)⟩

theorem lt_size_of_command {part : Line.CommandPart} (h : (s.line id).command? = some part) : id < s.lines.size := by
  by_contra hge
  rw [line_of_size_le (Nat.le_of_not_lt hge)] at h
  cases h

theorem lt_size_of_not_skipped (h : ¬ (s.line id).isSkipped = true) : id < s.lines.size := by
  by_contra hge
  rw [line_of_size_le (Nat.le_of_not_lt hge)] at h
  exact h rfl

namespace Located

variable {span : Span} {f : Line → Line}

theorem origins (h : s.Located) (id : LineId) (hid : id < s.lines.size) : (s.line id).origin.Inside s.extent :=
  (h.whole id hid).inside

theorem refl (h : s.Located) : Onward s s := ⟨h, .refl _, fun _ _ hd => hd⟩

/-- A step that changes nothing that can be reported, and no diagnostics. -/
theorem around (h : s.Located) (hsettings : s'.settings = s.settings) (hsources : s'.sources = s.sources)
    (hlines : s'.lines = s.lines) (hsymbols : s'.symbols = s.symbols) (hrecorders : s'.recorders = s.recorders)
    (hunits : s'.units = s.units) (hunsettled : s'.progress.unsettled = s.progress.unsettled)
    (hdiagnostics : s'.diagnostics = s.diagnostics) : Onward s s' := by
  have hextent : s'.extent = s.extent := by
    unfold extent instructions line
    rw [hsettings, hsources, hlines, hsymbols]
  have hline : ∀ id, s'.line id = s.line id := fun id => by rw [line, line, hlines]
  refine ⟨⟨hlines ▸ h.freeLines, hsources ▸ h.freeSources, fun id => ?_, fun id hid => ?_, ?_, ?_, ?_, ?_, ?_⟩, ?_,
    fun id d hd => ?_⟩
  · rw [hline, hextent]
    exact h.lines id
  · rw [hline, hextent]
    exact h.whole id (hlines ▸ hid)
  · rw [hsymbols, hextent]
    exact h.symbols
  · rw [hrecorders, hsymbols]
    exact h.recorders
  · rw [hunits, hextent]
    exact h.units
  · rw [hunsettled, hextent]
    exact h.unsettled
  · rw [hdiagnostics, hextent]
    exact h.diagnostics
  · rw [hextent]
    exact .refl _
  · rw [Assembly.directives, hline]
    exact hd

theorem extend (h : s.Located) (hle : s.extent.Le s'.extent) (hfreeLines : s'.lines.free = [])
    (hfreeSources : s'.sources.free = []) (hlines : ∀ id, (s'.line id).Placed s'.extent)
    (hwhole : ∀ id < s'.lines.size, (s'.line id).origin.IsLine s'.extent) (hsymbols : s'.symbols.Placed s'.extent)
    (hdirectives : ∀ id d, s.directives id = some d → s'.directives id = some d)
    (hrecorders : s'.recorders = s.recorders) (hunits : s'.units = s.units) (hprogress : s'.progress = s.progress)
    (hdiagnostics : s'.diagnostics = s.diagnostics) : Onward s s' := by
  refine ⟨⟨hfreeLines, hfreeSources, hlines, hwhole, hsymbols, fun ids hids id hid => ?_, fun u hu => ?_,
    fun sp hsp => ?_, fun d hd sp hsp => ?_⟩, hle, hdirectives⟩
  · exact Nat.lt_of_lt_of_le (h.recorders ids (hrecorders ▸ hids) id hid) hle.labels
  · exact (h.units u (hunits ▸ hu)).mono hle
  · exact (h.unsettled sp (hprogress ▸ hsp)).mono hle
  · exact (h.diagnostics d (hdiagnostics ▸ hd) sp hsp).mono hle

/-! ## Reports and lines -/

theorem report (h : s.Located) {d : Diagnostic} (hd : ∀ sp ∈ d.spans, sp.Sited s.extent) : Onward s (s.report d) := by
  refine ⟨⟨h.freeLines, h.freeSources, h.lines, h.whole, h.symbols, h.recorders, h.units, h.unsettled, ?_⟩, .refl _,
    fun _ _ hd => hd⟩
  intro d' hd'
  rcases Array.mem_push.mp hd' with hd' | rfl
  · exact h.diagnostics d' hd'
  · exact hd

theorem warn (h : s.Located) (hspan : span.Sited s.extent) (message : String) : Onward s (s.warn span message) :=
  h.report fun _ hsp => List.mem_singleton.mp hsp ▸ hspan

theorem modifyLine (h : s.Located) (id : LineId)
    (horigin : (f (s.line id)).origin = (s.line id).origin) (hf : (f (s.line id)).Placed s.extent)
    (hdirective : ∀ d, (s.line id).directive? = some d → (f (s.line id)).directive? = some d) :
    Onward s (s.modifyLine id f) := by
  have hplace : ∀ j, ((s.modifyLine id f).line j).origin = (s.line j).origin := by
    intro j
    rw [line_modifyLine]
    split
    · rename_i hj
      rw [hj.1, horigin]
    · rfl
  have hextent : (s.modifyLine id f).extent = s.extent := by
    unfold extent
    rw [size_modifyLine, funext hplace]
    rfl
  refine h.extend (hextent ▸ .refl _) h.freeLines h.freeSources (fun j => ?_) (fun j hj => ?_) ?_ (fun j d hd => ?_)
    rfl rfl rfl rfl
  · rw [hextent, line_modifyLine]
    split
    · rename_i hj
      exact hj.1 ▸ hf
    · exact h.lines j
  · rw [hextent, hplace]
    exact h.whole j (size_modifyLine s id f ▸ hj)
  · rw [hextent]
    exact h.symbols
  · rw [Assembly.directives, line_modifyLine]
    split
    · rename_i hj
      rw [hj.1] at hd ⊢
      exact hdirective d hd
    · exact hd

theorem modifyState (h : s.Located) (id : LineId)
    (hf : ∀ l, (f l).origin = l.origin ∧ (f l).label = l.label ∧ (f l).kind = l.kind) :
    Onward s (s.modifyLine id f) := by
  obtain ⟨horigin, hlabel, hkind⟩ := hf (s.line id)
  refine h.modifyLine id horigin ((h.lines id).congr horigin hlabel hkind) fun d hd => ?_
  unfold Line.directive? Line.command? at hd ⊢
  rw [hkind]
  exact hd

theorem mark (h : s.Located) (id : LineId) (state : LineState) : Onward s (s.mark id state) :=
  h.modifyState id fun l => by
    unfold Line.mark
    split <;> exact ⟨rfl, rfl, rfl⟩

theorem modifyOther (h : s.Located) (id : LineId)
    (hf : f (s.line id) = s.line id ∨ ∃ kind : Line.Kind, f (s.line id) = { s.line id with kind } ∧
      (s.line id).command? = none ∧ ({ s.line id with kind } : Line).command? = none ∧
      kind.tokens = (s.line id).kind.tokens ∧ kind.Placed s.extent) : Onward s (s.modifyLine id f) := by
  have hline := h.lines id
  rcases hf with hsame | ⟨kind, hchanged, hnone, hnone', htokens, hkind⟩
  · refine h.modifyLine id (by rw [hsame]) ?_ fun d hd => ?_
    · rw [hsame]
      exact hline
    · rw [hsame]
      exact hd
  · refine h.modifyLine id (by rw [hchanged]) ?_ fun d hd => ?_
    · rw [hchanged]
      exact .of_other hline.label (htokens ▸ hline.tokens) hkind hnone'
    · rw [Line.directive?, hnone] at hd
      cases hd

theorem modifyCommand (h : s.Located) (id : LineId) {f : Line.CommandPart → Line.CommandPart}
    (hsame : ∀ part, (f part).directive = part.directive ∧ (f part).keyword = part.keyword ∧
      (f part).arguments = part.arguments)
    (hkept : ∀ part ∈ (s.line id).command?, (Line.Kind.command (f part)).Placed s.extent)
    (hbelow : ∀ part ∈ (s.line id).command?, ∀ body ∈ (f part).body, ∀ j ∈ body,
      (s.line id).origin.Above (s.extent.origin j)) :
    Onward s (s.modifyLine id fun l => l.modifyCommand f) := by
  refine h.modifyLine id ?_ ((h.lines id).modifyCommand hsame hkept hbelow) fun d hd => ?_
  · unfold Line.modifyCommand
    split <;> rfl
  · obtain ⟨part, hpart, rfl⟩ := Option.map_eq_some_iff.mp hd
    rw [Line.directive?, command_modifyCommand, hpart]
    exact congrArg some (hsame part).1

theorem setDirectiveState (h : s.Located) (id : LineId) {state : DirectiveState} (hstate : state.Placed s.extent) :
    Onward s (s.setDirectiveState id state) :=
  h.modifyCommand id (fun _ => ⟨rfl, rfl, rfl⟩) (fun _ hpart => ⟨((h.lines id).command hpart).body, hstate⟩)
    (h.lines id).below

theorem modifyVariable (h : s.Located) (id : LineId) {f : Line.VariablePart → Line.VariablePart}
    (hf : ∀ part, (f part).name = part.name ∧ (f part).expression = part.expression) :
    Onward s (s.modifyLine id fun l =>
      match l.kind with
      | .variable part => { l with kind := .variable (f part) }
      | _ => l) := by
  refine h.modifyOther id ?_
  split
  · rename_i part hpart
    refine .inr ⟨.variable (f part), rfl, ?_, rfl, ?_, trivial⟩
    · rw [Line.command?, hpart]
    · rw [hpart, Line.Kind.tokens, Line.Kind.tokens, (hf part).1, (hf part).2]
  · exact .inl rfl

theorem modifyCall (h : s.Located) (id : LineId) {f : Line.CallPart → Line.CallPart}
    (hf : ∀ part, (f part).name = part.name ∧ (f part).arguments = part.arguments) :
    Onward s (s.modifyLine id fun l =>
      match l.kind with
      | .call part => { l with kind := .call (f part) }
      | _ => l) := by
  refine h.modifyOther id ?_
  split
  · rename_i part hpart
    refine .inr ⟨.call (f part), rfl, ?_, rfl, ?_, trivial⟩
    · rw [Line.command?, hpart]
    · rw [hpart, Line.Kind.tokens, Line.Kind.tokens, (hf part).1, (hf part).2]
  · exact .inl rfl

theorem modifyInstruction (h : s.Located) (id : LineId) {f : Line.InstructionPart → Line.InstructionPart}
    (hf : ∀ part, (f part).mnemonic = part.mnemonic ∧ (f part).operand = part.operand)
    (hmatched : ∀ part, (s.line id).kind = .instruction part → (Line.Kind.instruction (f part)).Placed s.extent) :
    Onward s (s.modifyLine id fun l =>
      match l.kind with
      | .instruction part => { l with kind := .instruction (f part) }
      | _ => l) := by
  refine h.modifyOther id ?_
  split
  · rename_i part hpart
    refine .inr ⟨.instruction (f part), rfl, ?_, rfl, ?_, hmatched part hpart⟩
    · rw [Line.command?, hpart]
    · rw [hpart, Line.Kind.tokens, Line.Kind.tokens, (hf part).1, (hf part).2]
  · exact .inl rfl

theorem directiveState (h : s.Located) (id : LineId) : (s.directiveState id).Placed s.extent := by
  unfold Assembly.directiveState
  split
  · rename_i part hpart
    exact ((h.lines id).command hpart).state
  · trivial

theorem fail (h : s.Located) (id : LineId) (hspan : span.Sited s.extent) (message : String) :
    Onward s (s.fail id span message) := by
  have hreport := h.report (d := { severity := .error, message, primary := span })
    fun _ hsp => List.mem_singleton.mp hsp ▸ hspan
  exact hreport.trans (hreport.located.mark id .error)

theorem symbolError (h : s.Located) (id : LineId) {e : SymbolError}
    (he : ∀ token ∈ e.previous?, token.span.Sited s.extent) (hspan : span.Sited s.extent) :
    Onward s (s.symbolError id e span) := by
  have hreport : ∀ labels : List (Span × String), (∀ label ∈ labels, label.1.Sited s.extent) →
      Onward s ((s.report { severity := .error, message := e.message, primary := span, labels }).mark id .error) := by
    intro labels hlabels
    have hstep := h.report (d := { severity := .error, message := e.message, primary := span, labels })
      (List.forall_mem_cons.mpr ⟨hspan, List.forall_mem_map.mpr hlabels⟩)
    exact hstep.trans (hstep.located.mark id .error)
  refine hreport _ ?_
  split
  · rename_i token htoken
    exact fun label hlabel => List.mem_singleton.mp hlabel ▸ he token htoken
  · nofun

/-! ## Symbols -/

theorem withSymbols (h : s.Located) {t : SymbolTable} (hsize : s.symbols.labels.size ≤ t.labels.size)
    (ht : t.Placed { s.extent with labels := t.labels.size }) : Onward s { s with symbols := t } := by
  have hle : s.extent.Le ({ s with symbols := t } : Assembly).extent :=
    ⟨rfl, fun _ _ hf => hf, Nat.le_refl _, fun _ _ => rfl, hsize⟩
  exact h.extend hle h.freeLines h.freeSources (fun id => (h.lines id).mono hle)
    (fun id hid => (h.whole id hid).mono hle) ht (fun _ _ hd => hd) rfl rfl rfl rfl

theorem sameLabels (h : s.Located) {t : SymbolTable} (ht : t.Placed s.extent) : Onward s { s with symbols := t } := by
  have hsize : t.labels.size = s.symbols.labels.size := ht.size
  refine h.withSymbols hsize.ge ?_
  rw [hsize]
  exact ht

theorem setDoc (h : s.Located) (label : LabelId) (doc : Option String) : Onward s (s.setDoc label doc) :=
  h.sameLabels (h.symbols.modifyLabel label fun _ => rfl)

theorem addReferences (h : s.Located) (source : SourceId) (e : Expression) : Onward s (s.addReferences source e) := by
  refine h.sameLabels ?_
  have hsymbols := h.symbols
  generalize s.symbols = t at hsymbols ⊢
  generalize s.extent = ext at hsymbols ⊢
  induction e.references generalizing t with
  | nil => exact hsymbols
  | cons r rs ih =>
    refine ih _ ?_
    simp only
    split
    · exact hsymbols.addReference source _
    · exact hsymbols

theorem defineLabel (h : s.Located) (id : LineId) {token : Token} (htoken : token.span.Sited s.extent) (scope : ScopeId)
    (kind : LabelKind) (allow : Bool) : Onward s (s.defineLabel id token scope kind allow).2 := by
  unfold Assembly.defineLabel
  split
  · exact h.fail id htoken _
  split
  · rename_i label symbols hmade
    obtain ⟨rfl, hplaced⟩ := h.symbols.createLabel htoken hmade
    have hsize : symbols.labels.size = s.symbols.labels.size + 1 := hplaced.size
    have hstep := h.withSymbols (t := symbols) (by omega) (by rw [hsize]; exact hplaced)
    have hnew : s.symbols.labels.size < symbols.labels.size := by omega
    refine ⟨⟨hstep.located.freeLines, hstep.located.freeSources, hstep.located.lines, hstep.located.whole,
      hstep.located.symbols, ?_, hstep.located.units, hstep.located.unsettled, hstep.located.diagnostics⟩, hstep.le,
      hstep.directives⟩
    intro ids hids j hj
    obtain ⟨ids', hids', rfl⟩ := List.mem_map.mp hids
    rcases List.mem_cons.mp hj with rfl | hj
    · exact hnew
    · exact hstep.located.recorders ids' hids' j hj
  · rename_i e hfailed
    exact h.symbolError id (h.symbols.previous_of_createLabel hfailed) htoken

/-- A label gets a value. One that had a value before was made at a place in the sources. -/
theorem setLabelValue (h : s.Located) (label : LabelId) (value : Option Value) :
    Onward s (s.setLabelValue label value) := by
  have hset : Onward s { s with symbols := (s.symbols.setValue label value).2 } :=
    h.sameLabels (h.symbols.setValue label value)
  unfold Assembly.setLabelValue
  simp only
  split
  · split
    · rename_i hold
      refine ⟨⟨hset.located.freeLines, hset.located.freeSources, hset.located.lines, hset.located.whole,
        hset.located.symbols, hset.located.recorders, hset.located.units, ?_, hset.located.diagnostics⟩, hset.le,
        hset.directives⟩
      rintro _ ⟨⟩
      simp only [Bool.and_eq_true] at hold
      obtain ⟨v, hv⟩ := Option.isSome_iff_exists.mp hold.1.1.2
      exact (h.symbols.labels label (SymbolTable.lt_size_of_value hv)).mono hset.le
    · exact hset.trans (hset.located.around rfl rfl rfl rfl rfl rfl rfl rfl)
  · exact hset

theorem hide (h : s.Located) (labels : List LabelId) : Onward s (s.hide labels) :=
  h.sameLabels (h.symbols.unbindAll labels)

/-! ## New lines -/

theorem pushLine (h : s.Located) {l : Line} (hl : l.Placed s.extent) (hwhole : l.origin.IsLine s.extent) :
    Onward s { s with lines := (s.lines.push l).2 } ∧ (s.lines.push l).1 < (s.lines.push l).2.size ∧
      ({ s with lines := (s.lines.push l).2 } : Assembly).extent.origin (s.lines.push l).1 = l.origin := by
  have hsize := size_push (l := l) h.freeLines
  have hold : ∀ id < s.lines.size, ({ s with lines := (s.lines.push l).2 } : Assembly).line id = s.line id := by
    intro id hid
    rw [line_push h.freeLines, if_neg (Nat.ne_of_lt hid)]
  have hle : s.extent.Le ({ s with lines := (s.lines.push l).2 } : Assembly).extent :=
    ⟨rfl, fun _ _ hf => hf, (Nat.le_succ _).trans hsize.ge, fun id hid => congrArg Line.origin (hold id hid),
      Nat.le_refl _⟩
  refine ⟨h.extend hle ?_ h.freeSources (fun id => ?_) (fun id hid => ?_) (h.symbols.mono hle rfl)
    (fun id d hd => ?_) rfl rfl rfl rfl, ?_, ?_⟩
  · rw [push_of_free h.freeLines]
  · rw [line_push h.freeLines]
    split
    · exact hl.mono hle
    · exact (h.lines id).mono hle
  · rw [line_push h.freeLines]
    split
    · exact hwhole.mono hle
    · rename_i hne
      have hlt : id < s.lines.size + 1 := hsize ▸ hid
      exact (h.whole id (Nat.lt_of_le_of_ne (Nat.le_of_lt_succ hlt) hne)).mono hle
  · obtain ⟨part, hpart, -⟩ := Option.map_eq_some_iff.mp hd
    rw [Assembly.directives, hold id (lt_size_of_command hpart)]
    exact hd
  · rw [hsize, push_of_free h.freeLines]
    exact Nat.lt_succ_self _
  · change (({ s with lines := (s.lines.push l).2 } : Assembly).line _).origin = _
    rw [line_push h.freeLines, push_of_free h.freeLines, if_pos rfl]

theorem pushAll (h : s.Located) {ls : List Line} (hls : ∀ l ∈ ls, l.Placed s.extent ∧ l.origin.IsLine s.extent) :
    Onward s { s with lines := (s.lines.pushAll ls).2 } ∧
      (∀ id ∈ (s.lines.pushAll ls).1, id < (s.lines.pushAll ls).2.size) ∧
      (s.lines.pushAll ls).1.map ({ s with lines := (s.lines.pushAll ls).2 } : Assembly).extent.origin =
        ls.map Line.origin := by
  induction ls generalizing s with
  | nil => exact ⟨h.refl, nofun, rfl⟩
  | cons l ls ih =>
    obtain ⟨hl, hrest⟩ := List.forall_mem_cons.mp hls
    obtain ⟨hpush, hid, horigin⟩ := h.pushLine hl.1 hl.2
    obtain ⟨hall, hids, horigins⟩ := ih hpush.located fun l' hl' =>
      ⟨(hrest l' hl').1.mono hpush.le, (hrest l' hl').2.mono hpush.le⟩
    refine ⟨hpush.trans hall, List.forall_mem_cons.mpr ⟨Nat.lt_of_lt_of_le hid hall.le.lines, hids⟩, ?_⟩
    exact List.cons_eq_cons.mpr ⟨(hall.le.origin _ hid).trans horigin, horigins⟩

theorem copyLines (h : s.Located) {body : List LineId} (hbody : s.extent.Ordered body) (scope : ScopeId) :
    Onward s { s with lines := (s.lines.instantiate body scope).2 } ∧
      ({ s with lines := (s.lines.instantiate body scope).2 } : Assembly).extent.Ordered
        (s.lines.instantiate body scope).1 := by
  have hcopies : Onward s { s with lines := (s.lines.instantiate body scope).2 } ∧
      (∀ id ∈ (s.lines.instantiate body scope).1, id < (s.lines.instantiate body scope).2.size) ∧
      (s.lines.instantiate body scope).1.map
          ({ s with lines := (s.lines.instantiate body scope).2 } : Assembly).extent.origin =
        body.map s.extent.origin := by
    have hlines := hbody.lines
    clear hbody
    induction body generalizing s with
    | nil => exact ⟨h.refl, nofun, rfl⟩
    | cons id body ih =>
      obtain ⟨hid, hrest⟩ := List.forall_mem_cons.mp hlines
      obtain ⟨hpush, hcopy, horigin⟩ := h.pushLine ((h.lines id).copyTo scope) (h.whole id hid)
      obtain ⟨hall, hids, horigins⟩ := ih hpush.located fun j hj => Nat.lt_of_lt_of_le (hrest j hj) hpush.le.lines
      refine ⟨hpush.trans hall, List.forall_mem_cons.mpr ⟨Nat.lt_of_lt_of_le hcopy hall.le.lines, hids⟩, ?_⟩
      refine List.cons_eq_cons.mpr ⟨(hall.le.origin _ hcopy).trans horigin, horigins.trans ?_⟩
      exact List.map_congr_left fun j hj => hpush.le.origin j (hrest j hj)
  obtain ⟨hstep, hids, horigins⟩ := hcopies
  exact ⟨hstep, hids, horigins ▸ hbody.order⟩

theorem addScope (h : s.Located) (kind : ScopeKind) (parent : ScopeId) (source : SourceId) :
    Onward s { s with symbols := (s.symbols.addScope kind parent source).2 } :=
  h.sameLabels (h.symbols.addScope kind parent source)

theorem addSource (h : s.Located) (name text : String) : Onward s { s with sources := (s.sources.add name text).2 } ∧
      (s.sources.add name text).2.get? (s.sources.add name text).1 = some ⟨name, text⟩ := by
  rw [SourceStore.add_of_free h.freeSources]
  have hle : s.extent.Le ({ s with sources := ⟨s.sources.files.push ⟨name, text⟩, []⟩ } : Assembly).extent :=
    ⟨rfl, fun _ _ hf => SourceStore.get_push hf, Nat.le_refl _, fun _ _ => rfl, Nat.le_refl _⟩
  refine ⟨h.extend hle h.freeLines rfl (fun id => (h.lines id).mono hle) (fun id hid => (h.whole id hid).mono hle)
    (h.symbols.mono hle rfl) (fun _ _ hd => hd) rfl rfl rfl rfl, ?_⟩
  exact Array.getElem?_push_size

theorem loadSource (h : s.Located) (name text : String) : Onward s (s.loadSource name text).2 ∧
      (s.loadSource name text).2.extent.Ordered (s.loadSource name text).1.2.2 := by
  obtain ⟨hsource, hget⟩ := h.addSource name text
  unfold Assembly.loadSource
  simp only
  generalize s.sources.add name text = added at hsource hget ⊢
  obtain ⟨source, sources⟩ := added
  have hscope := hsource.located.addScope .file globalScope source
  simp only at hscope ⊢
  generalize s.symbols.addScope .file globalScope source = made at hscope ⊢
  obtain ⟨scope, symbols⟩ := made
  have hread : ∀ l ∈ (classifySource s.instructions source ⟨name, text⟩).map fun l => l.toLine scope,
      l.Placed ({ s with sources, symbols } : Assembly).extent ∧
        l.origin.IsLine ({ s with sources, symbols } : Assembly).extent := by
    intro l hl
    obtain ⟨c, hc, rfl⟩ := List.mem_map.mp hl
    exact placed_of_mem_classifySource (e := ({ s with sources, symbols } : Assembly).extent) hget hc scope
  obtain ⟨hlines, hids, horigins⟩ := hscope.located.pushAll hread
  refine ⟨(hsource.trans hscope).trans hlines, hids, ?_⟩
  have horder := pairwise_classifySource s.instructions source ⟨name, text⟩
  refine horigins ▸ ?_
  rw [List.map_map]
  exact List.pairwise_map.mpr horder

end Located

end Assembly

end CrossAssembler
