import CrossAssembler.Proofs.Diagnostics.Located
import CrossAssembler.Proofs.Scopes.Upkeep

/-!
# Work in place

Most of what is done to lines opens and closes nothing and puts no lines below others. It leaves everything in
its place, and the scopes in order.

Principal results: `Kept.defineLabel`, `Kept.evaluate` and `Kept.arrange` — what the steps do that all work in
place is made of.
-/

namespace CrossAssembler.Assembly

/-- What is asked of an assembly: that everything lies in its place, that scopes are in order, and that nothing is
ever released. -/
structure Regime where
  placed : Prop
  known : Prop
  lasting : Prop

/-- That scopes are in order, and that nothing is ever released. -/
abbrev Regime.scopes : Regime := ⟨False, True, True⟩

/-- Whether an assembly is as asked. -/
structure Kept (r : Regime) (s : Assembly) : Prop where
  located : r.placed → s.Located
  orderly : s.Orderly r.known r.lasting

/-- Work in place after which an assembly is as asked. -/
structure Proceeds (r : Regime) (s s' : Assembly) : Prop where
  onward : r.placed → Onward s s'
  tends : Tends r.known r.lasting s s'

variable {r : Regime} {s s' s'' : Assembly} {id : LineId} {token : Token} {scope : ScopeId} {part : Line.CommandPart}

theorem Located.kept (h : s.Located) : s.Kept ⟨True, False, False⟩ := ⟨fun _ => h, nofun⟩

theorem Orderly.kept {known lasting : Prop} (h : s.Orderly known lasting) : s.Kept ⟨False, known, lasting⟩ := ⟨nofun, h⟩

namespace Proceeds

theorem kept (h : Proceeds r s s') : s'.Kept r := ⟨fun hp => (h.onward hp).located, h.tends.orderly⟩

theorem le (h : Proceeds r s s') (hp : r.placed) : s.extent.Le s'.extent := (h.onward hp).le

theorem trans (h : Proceeds r s s') (h' : Proceeds r s' s'') : Proceeds r s s'' :=
  ⟨fun hp => (h.onward hp).trans (h'.onward hp), h.tends.trans h'.tends⟩

theorem andThen (h : Proceeds r s s') (hnext : s'.Kept r → Proceeds r s' s'') : Proceeds r s s'' :=
  h.trans (hnext h.kept)

theorem inUse (h : Proceeds r s s') (hscope : r.known → s.symbols.InUse scope) :
    r.known → s'.symbols.InUse scope := h.tends.inUse hscope

theorem lt (h : Proceeds r s s') (hid : r.placed → id < s.lines.size) : r.placed → id < s'.lines.size :=
  fun hp => h.tends.size ▸ hid hp

theorem inside (h : Proceeds r s s') (ht : r.placed → token.Inside s.extent) : r.placed → token.Inside s'.extent :=
  fun hp => (ht hp).mono (h.le hp)

theorem placed (h : Proceeds r s s') (hpart : r.placed → part.Placed s.extent) : r.placed → part.Placed s'.extent :=
  fun hp => (hpart hp).mono (h.le hp)

end Proceeds

/-- Whether a way to work on items is work in place. -/
def InPlace (r : Regime) (f : Assembly → List Item → Assembly) : Prop :=
  ∀ s items, s.Kept r → Proceeds r s (f s items)

namespace Kept

theorem foldl {α : Type} {f : Assembly → α → Assembly} (hf : ∀ (s : Assembly) (a : α), s.Kept r → Proceeds r s (f s a))
    (h : s.Kept r) (l : List α) : Proceeds r s (l.foldl f s) := by
  induction l generalizing s with
  | nil => exact ⟨fun hp => (h.located hp).refl, h.orderly.refl⟩
  | cons a l ih => exact (hf s a h).andThen fun h => ih h

section

variable (h : s.Kept r)
variable {span : Span}

include h

/-! ## Small steps -/

theorem refl : Proceeds r s s := ⟨fun hp => (h.located hp).refl, h.orderly.refl⟩

theorem origin (hid : r.placed → id < s.lines.size) : r.placed → (s.line id).origin.Inside s.extent :=
  fun hp => (h.located hp).origins id (hid hp)

theorem inUse (id : LineId) : r.known → s.symbols.InUse (s.line id).scope := h.orderly.inUse id

theorem around (hsettings : s'.settings = s.settings) (hsources : s'.sources = s.sources)
    (hlines : s'.lines = s.lines) (hsymbols : s'.symbols = s.symbols) (hrecorders : s'.recorders = s.recorders)
    (hunits : s'.units = s.units) (hunsettled : s'.progress.unsettled = s.progress.unsettled)
    (hdiagnostics : s'.diagnostics = s.diagnostics) (hdepth : s'.depth = s.depth)
    (hstack : s'.includeStack = s.includeStack) (hnestings : s'.nestings = s.nestings) : Proceeds r s s' :=
  ⟨fun hp => (h.located hp).around hsettings hsources hlines hsymbols hrecorders hunits hunsettled hdiagnostics,
    h.orderly.around hlines hsymbols hrecorders hunits hdepth hstack hnestings⟩

theorem mark (id : LineId) (state : LineState) : Proceeds r s (s.mark id state) :=
  ⟨fun hp => (h.located hp).mark id state, h.orderly.mark id state⟩

theorem warn (hspan : r.placed → span.Sited s.extent) (message : String) : Proceeds r s (s.warn span message) :=
  ⟨fun hp => (h.located hp).warn (hspan hp) message, h.orderly.report _⟩

theorem fail (id : LineId) (hspan : r.placed → span.Sited s.extent) (message : String) :
    Proceeds r s (s.fail id span message) :=
  ⟨fun hp => (h.located hp).fail id (hspan hp) message, h.orderly.fail id span message⟩

theorem failAt (id : LineId) (ht : r.placed → token.Inside s.extent) (message : String) :
    Proceeds r s (s.fail id token.span message) := h.fail id (fun hp => (ht hp).sited) message

theorem note (event : Event) : Proceeds r s (s.note event) := h.around rfl rfl rfl rfl rfl rfl rfl rfl rfl rfl rfl

theorem valueError (id : LineId) (hspan : r.placed → span.Sited s.extent) (message : String) :
    Proceeds r s (s.valueError id span message) := by
  unfold Assembly.valueError
  split
  · exact h.fail id hspan message
  · exact h.around rfl rfl rfl rfl rfl rfl rfl rfl rfl rfl rfl

theorem modifyState (id : LineId) {f : Line → Line}
    (hf : ∀ l, (f l).origin = l.origin ∧ (f l).label = l.label ∧ (f l).scope = l.scope ∧ (f l).kind = l.kind) :
    Proceeds r s (s.modifyLine id f) := by
  refine ⟨fun hp => (h.located hp).modifyState id fun l => ?_, h.orderly.tend id (.of_kind (hf _).2.2.1 (hf _).2.2.2)⟩
  exact ⟨(hf l).1, (hf l).2.1, (hf l).2.2.2⟩

theorem setDirectiveState (id : LineId) {state : DirectiveState} (hstate : r.placed → state.Placed s.extent)
    (hnested : state.nested = []) (hlabels : state.labels = []) : Proceeds r s (s.setDirectiveState id state) :=
  ⟨fun hp => (h.located hp).setDirectiveState id (hstate hp), h.orderly.setDirectiveState id hnested hlabels⟩

/-! ## Labels -/

theorem defineLabel (id : LineId) (htoken : r.placed → token.span.Sited s.extent)
    (hscope : r.known → s.symbols.InUse scope) (kind : LabelKind) (allow : Bool) :
    Proceeds r s (s.defineLabel id token scope kind allow).2 ∧ ∀ label ∈ (s.defineLabel id token scope kind allow).1,
      r.known → label ∉ (s.defineLabel id token scope kind allow).2.symbols.freeLabels := by
  obtain ⟨htends, hlabel⟩ := h.orderly.defineLabel id token hscope kind allow
  exact ⟨⟨fun hp => (h.located hp).defineLabel id (htoken hp) scope kind allow, htends⟩, hlabel⟩

theorem setLabelValue {label : LabelId} (hlabel : r.known → label ∉ s.symbols.freeLabels) (value : Option Value) :
    Proceeds r s (s.setLabelValue label value) :=
  ⟨fun hp => (h.located hp).setLabelValue label value, h.orderly.setLabelValue hlabel value⟩

theorem defineDoc (htoken : r.placed → token.span.Sited s.extent)
    (hscope : r.known → s.symbols.InUse scope) {kind : LabelKind} {allow : Bool} {label? : Option LabelId}
    (hmade : s.defineLabel id token scope kind allow = (label?, s')) (doc : Option String) :
    Proceeds r s s' ∧ ∀ label ∈ label?, Proceeds r s (s'.setDoc label doc) ∧
      (r.known → label ∉ (s'.setDoc label doc).symbols.freeLabels) := by
  obtain ⟨hdefine, hfree⟩ := h.defineLabel id htoken hscope kind allow
  rw [hmade] at hdefine hfree
  refine ⟨hdefine, fun label hlabel => ⟨hdefine.trans ⟨fun hp => ?_, ?_⟩, hfree label hlabel⟩⟩
  · exact (hdefine.onward hp).located.setDoc label doc
  · exact hdefine.tends.orderly.setDoc (hfree label hlabel) doc

theorem defineLineLabel (id : LineId) : Proceeds r s (s.defineLineLabel id) := by
  unfold Assembly.defineLineLabel
  simp only
  split
  · rename_i token hlabel _
    have htoken : r.placed → token.span.Sited s.extent := fun hp => (((h.located hp).lines id).label token hlabel).sited
    split
    · rename_i label s1 heq
      obtain ⟨-, hdoc⟩ := h.defineDoc htoken (h.inUse id) heq (s.line id).comment
      exact (hdoc label rfl).1.andThen fun h => h.modifyState id fun _ => ⟨rfl, rfl, rfl, rfl⟩
    · rename_i s1 heq
      exact (h.defineDoc htoken (h.inUse id) heq none).1
  · exact h.refl

/-! ## Expressions -/

theorem addReferences (source : SourceId) (e : Expression) : Proceeds r s (s.addReferences source e) :=
  ⟨fun hp => (h.located hp).addReferences source e, h.orderly.addReferences source e⟩

theorem parseExpression (id : LineId) (ht : r.placed → token.Inside s.extent) :
    Proceeds r s (s.parseExpression id token).2 := by
  unfold Assembly.parseExpression
  split
  · exact h.addReferences token.source _
  · refine h.fail id (fun hp => ?_) _
    split
    · exact .inl ((ht hp).subSpan _ _)
    · exact (ht hp).sited

theorem parseExpressions (id : LineId) {tokens : List Token} (ht : r.placed → ∀ t ∈ tokens, t.Inside s.extent) :
    Proceeds r s (s.parseExpressions id tokens).2 := by
  induction tokens generalizing s with
  | nil => exact h.refl
  | cons token tokens ih =>
    have hstep := h.parseExpression id fun hp => ht hp token List.mem_cons_self
    exact hstep.trans (ih hstep.kept fun hp t hmem => (ht hp t (List.mem_cons_of_mem _ hmem)).mono (hstep.le hp))

theorem parseArguments (id : LineId) (skipped : Nat) : Proceeds r s (s.parseArguments id skipped) := by
  unfold Assembly.parseArguments
  split
  · exact h.refl
  rename_i part hpart
  have htokens : r.placed → ∀ t ∈ part.arguments.drop skipped, t.Inside s.extent := fun hp t ht =>
    (((h.located hp).lines id).command hpart).arguments t (List.mem_of_mem_drop ht)
  have hstep := h.parseExpressions id htokens
  refine hstep.trans ⟨fun hp => ?_, hstep.tends.orderly.tend id ?_⟩
  · have hlines := (hstep.onward hp).located.lines id
    refine (hstep.onward hp).located.modifyCommand id (fun _ => ⟨rfl, rfl, rfl⟩) (fun part' hpart' => ?_) hlines.below
    exact ⟨(hlines.command hpart').body, (hlines.command hpart').state⟩
  · exact Line.tended_modifyCommand _ fun _ _ => ⟨List.Subset.refl _, List.Subset.refl _⟩

omit h in
theorem errorSpan_sited {e : Extent} (ht : token.Inside e) (err : Expression.Error) :
    (errorSpan token err).Sited e := by
  unfold errorSpan
  split
  · exact .inl (ht.subSpan _ _)
  · exact ht.sited

theorem evaluate (id : LineId) (e : Expression) (ht : r.placed → token.Inside s.extent) :
    Proceeds r s (s.evaluate id e token).2 := by
  unfold Assembly.evaluate
  simp only
  have hnote := fun event => h.note event
  split
  · exact hnote _
  · exact (hnote _).andThen fun h => h.around rfl rfl rfl rfl rfl rfl rfl rfl rfl rfl rfl
  · exact (hnote _).trans ((hnote _).kept.valueError id (fun hp => errorSpan_sited ((hnote _).inside ht hp) _) _)

theorem evaluateWord (id : LineId) (e : Expression) (ht : r.placed → token.Inside s.extent) :
    Proceeds r s (s.evaluateWord id e token).2 := by
  have hstep := h.evaluate id e ht
  unfold Assembly.evaluateWord
  generalize s.evaluate id e token = result at hstep ⊢
  obtain ⟨answer, s1⟩ := result
  cases answer with
  | known value =>
    simp only
    split
    · exact hstep
    · exact hstep.trans (hstep.kept.failAt id (hstep.inside ht) _)
  | pending => exact hstep
  | failed => exact hstep

theorem argumentWord (id : LineId) (index : Nat) : Proceeds r s (s.argumentWord id index).2 := by
  unfold Assembly.argumentWord
  split
  · exact h.refl
  rename_i part hpart
  split
  · rename_i e token _ htoken
    exact h.evaluateWord id e fun hp =>
      (((h.located hp).lines id).command hpart).arguments token (List.mem_of_getElem? htoken)
  · exact h.refl

/-! ## Block structure -/

theorem checkArguments (id : LineId) : Proceeds r s (s.checkArguments id) := by
  unfold Assembly.checkArguments
  split
  · exact h.refl
  rename_i part hpart
  have hkeyword : r.placed → part.keyword.Inside s.extent := fun hp =>
    (((h.located hp).lines id).command hpart).keyword
  simp only
  split
  · exact h.failAt id hkeyword _
  · split
    · split
      · exact h.failAt id hkeyword _
      · exact h.refl
    · exact h.refl

theorem checkLabel (id : LineId) : Proceeds r s (s.checkLabel id).2 := by
  unfold Assembly.checkLabel
  simp only
  split
  · rename_i label d hlabel _
    split
    · exact h.refl
    · exact h.failAt id (fun hp => ((h.located hp).lines id).label label hlabel) _
  · exact h.refl

theorem closeBlock (id : LineId) : Proceeds r s (s.closeBlock id) :=
  ((h.checkArguments id).andThen fun h => h.checkLabel id).andThen fun h => h.mark id .finished

theorem rejectDividers (ids : List LineId) : Proceeds r s (s.rejectDividers ids) := by
  refine foldl (fun s id h => ?_) h ids
  simp only
  split
  · rename_i d hd
    obtain ⟨part, hpart, -⟩ := Option.map_eq_some_iff.mp hd
    exact h.failAt id (h.origin fun _ => lt_size_of_command hpart) _
  · exact h.refl

end

theorem unlessStopped {α : Type} {f : Assembly → α → Assembly}
    (hf : ∀ (s : Assembly) (a : α), s.Kept r → Proceeds r s (f s a)) (h : s.Kept r) (l : List α) :
    Proceeds r s (l.foldl (fun s a => if s.stopped then s else f s a) s) := by
  refine foldl (fun s a h => ?_) h l
  split
  · exact h.refl
  · exact hf s a h

end Kept

/-- What a way to arrange lines does to lines that stand below each other. -/
def ArrangesInPlace (r : Regime) (arrange : Assembly → List LineId → List Item × Assembly) : Prop :=
  ∀ (s : Assembly) (ids : List LineId), s.Kept r → (r.placed → s.extent.Ordered ids) →
    Proceeds r s (arrange s ids).2 ∧ ((arrange s ids).1.map Item.id).Sublist ids

section

variable {arrange : Assembly → List LineId → List Item × Assembly}

theorem proceeds_arrangeBranches (harrange : ArrangesInPlace r arrange) (h : s.Kept r)
    {branches : List (LineId × List LineId)} (hbranches : r.placed → ∀ b ∈ branches, s.extent.Ordered b.2) :
    Proceeds r s (arrangeBranches arrange s branches).2 := by
  induction branches generalizing s with
  | nil => exact h.refl
  | cons b branches ih =>
    have hstep := (harrange s b.2 h fun hp => hbranches hp b List.mem_cons_self).1
    exact hstep.trans (ih hstep.kept fun hp b hb => (hbranches hp b (List.mem_cons_of_mem _ hb)).mono (hstep.le hp))

theorem proceeds_arrangeBlock (harrange : ArrangesInPlace r arrange) (h : s.Kept r) (d : Directive)
    {body : List LineId} (hbody : r.placed → s.extent.Ordered (id :: body)) (stop : LineId) :
    Proceeds r s (arrangeBlock arrange s id d body stop).2 ∧ (arrangeBlock arrange s id d body stop).1.id = id := by
  have hclose := h.closeBlock stop
  have hinner : r.placed → s.extent.Ordered body := fun hp => (hbody hp).sublist (List.sublist_cons_self id body)
  unfold arrangeBlock
  simp only
  split
  · have hof := divide_of (fun id => ((s.closeBlock stop).line id).directive?) body 0 false
    generalize divide (fun id => ((s.closeBlock stop).line id).directive?) 0 false body = division at hof ⊢
    have hstart := hclose.andThen fun h => h.rejectDividers division.rejected
    have hordered : r.placed → ∀ b ∈ (id, division.first) :: division.branches,
        ((s.closeBlock stop).rejectDividers division.rejected).extent.Ordered b.2 := by
      refine fun hp => List.forall_mem_cons.mpr ⟨((hinner hp).sublist hof.first).mono (hstart.le hp), fun b hb => ?_⟩
      exact ((hinner hp).sublist (hof.branches hb).2).mono (hstart.le hp)
    have hbranches := hstart.trans (proceeds_arrangeBranches harrange hstart.kept hordered)
    refine ⟨hbranches.trans ⟨fun hp => ?_, hbranches.tends.orderly.tend id ?_⟩, rfl⟩
    · have hlines := (hbranches.onward hp).located.lines id
      refine (hbranches.onward hp).located.modifyCommand id (fun _ => ⟨rfl, rfl, rfl⟩) (fun part hpart => ?_) hlines.below
      exact ⟨(hlines.command hpart).body, (hlines.command hpart).state⟩
    · exact Line.tended_modifyCommand _ fun _ _ => ⟨List.Subset.refl _, List.Subset.refl _⟩
  · refine ⟨hclose.trans ⟨fun hp => ?_, hclose.tends.orderly.tend id ?_⟩, rfl⟩
    · have hlocated := (hclose.onward hp).located
      refine hlocated.modifyCommand id (fun _ => ⟨rfl, rfl, rfl⟩) (fun part hpart => ?_) ?_
      · refine ⟨?_, ((hlocated.lines id).command hpart).state⟩
        rintro _ ⟨⟩
        exact (hinner hp).mono (hclose.le hp)
      · rintro _ _ _ ⟨⟩
        exact ((hbody hp).mono (hclose.le hp)).above
    · exact Line.tended_modifyCommand _ fun _ _ => ⟨List.Subset.refl _, List.Subset.refl _⟩

end

theorem proceeds_arrangeWithin (bound : Nat) : ArrangesInPlace r (arrangeWithin bound) := by
  induction bound with
  | zero => exact fun s ids h _ => ⟨h.refl, List.nil_sublist ids⟩
  | succ bound ih =>
    intro s ids h hids
    cases ids with
    | nil => exact ⟨h.refl, .slnil⟩
    | cons id rest =>
      -- the lines after the first are arranged after some step
      have hlater : ∀ {s' : Assembly} {after : List LineId} (item : Item), Proceeds r s s' → after.Sublist rest →
          item.id = id → Proceeds r s (arrangeWithin bound s' after).2 ∧
            ((item :: (arrangeWithin bound s' after).1).map Item.id).Sublist (id :: rest) := by
        intro s' after item hstep hafter hitem
        obtain ⟨hnext, hitems⟩ := ih s' after hstep.kept fun hp =>
          ((hids hp).sublist (hafter.cons id)).mono (hstep.le hp)
        exact ⟨hstep.trans hnext, hitem ▸ (hitems.trans hafter).cons_cons _⟩
      unfold arrangeWithin
      simp only
      split
      · rename_i part hpart _
        have hkeyword : r.placed → part.keyword.Inside s.extent := fun hp =>
          (((h.located hp).lines id).command hpart).keyword
        split
        · rename_i closer _
          split
          · have hfail := h.failAt id hkeyword s!"{part.directive.name} without a matching {closer.name}"
            refine ⟨hfail.trans (Kept.foldl (fun s j h => h.mark j .ignored) hfail.kept rest), ?_⟩
            have hrest : rest.map (Item.id ∘ Item.line) = rest := List.map_id rest
            rw [List.map_cons, List.map_map, hrest]
            exact .refl _
          · rename_i body stop after hsplit
            obtain rfl := splitAtCloser_eq hsplit
            obtain ⟨hblock, hid⟩ := proceeds_arrangeBlock ih h part.directive (fun hp =>
              (hids hp).sublist ((List.sublist_append_left body (stop :: after)).cons_cons id)) stop
            exact hlater _ hblock ((List.sublist_cons_self stop after).trans (List.sublist_append_right body _)) hid
        · refine hlater (.line id) ?_ (.refl rest) rfl
          split
          · exact h.failAt id hkeyword _
          · exact h.refl
      · exact hlater (.line id) h.refl (.refl rest) rfl

/-- Lines that stand below each other can be put into their block structure. -/
theorem Kept.arrange (h : s.Kept r) (ids : List LineId) (hids : r.placed → s.extent.Ordered ids) :
    Proceeds r s (s.arrange ids).2 ∧ ((s.arrange ids).1.map Item.id).Sublist ids :=
  proceeds_arrangeWithin ids.length s ids h hids

end CrossAssembler.Assembly
