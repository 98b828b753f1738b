import CrossAssembler.Proofs.InPlace.Output
import CrossAssembler.Proofs.Scopes.Growth

/-!
# Analysis keeps within its limits

A macro is expanded and a file is included only where the limits allow one more level. So analysis keeps the
nesting within its limits at every moment, and leaves it as it found it.

Principal result: `analyses_analyze`.
-/

namespace CrossAssembler.Assembly

variable {r : Regime} {s s' s'' : Assembly} {id : LineId} {scope : ScopeId} {ids : List LineId}

/-! ## Limits -/

/-- Whether a nesting is within its limits: so many calls and repetitions, and so many included files, no two of
them the same. -/
structure Fits (depth : Nat) (stack : List Path) : Prop where
  calls : depth ≤ expansionLimit
  files : stack.length ≤ includeLimit
  distinct : stack.Pairwise fun p q => p.same q = false

/-- Whether a file can be included in others. -/
structure Includable (path : Path) (stack : List Path) : Prop where
  room : stack.length < includeLimit
  new : ∀ p ∈ stack, p.same path = false

/-- Whether the nesting was within its limits each time it changed. The one noted last is the current one, and before
the first there was none. -/
structure Bounded (s : Assembly) : Prop where
  fits : ∀ nesting ∈ s.nestings, Fits nesting.1 nesting.2
  latest : s.nestings.headD (0, []) = (s.depth, s.includeStack)

theorem Fits.call {depth : Nat} {stack : List Path} (h : Fits depth stack) (hroom : depth < expansionLimit) :
    Fits (depth + 1) stack := ⟨hroom, h.files, h.distinct⟩

theorem Fits.file {depth : Nat} {stack : List Path} {path : Path} (h : Fits depth stack)
    (hpath : Includable path stack) : Fits depth (path :: stack) := by
  refine ⟨h.calls, hpath.room, List.pairwise_cons.mpr ⟨fun p hp => ?_, h.distinct⟩⟩
  have hne := hpath.new p hp
  unfold Path.same at hne ⊢
  rw [beq_eq_false_iff_ne] at hne ⊢
  exact hne.symm

theorem Bounded.current (h : s.Bounded) : Fits s.depth s.includeStack := by
  have hlatest := h.latest
  cases hnestings : s.nestings with
  | nil =>
    rw [hnestings] at hlatest
    obtain ⟨hdepth, hstack⟩ := Prod.mk.inj hlatest
    rw [← hdepth, ← hstack]
    exact ⟨Nat.zero_le _, Nat.zero_le _, List.Pairwise.nil⟩
  | cons nesting older =>
    rw [hnestings] at hlatest
    have hfits := h.fits nesting (hnestings ▸ List.mem_cons_self)
    rw [show nesting = (s.depth, s.includeStack) from hlatest] at hfits
    exact hfits

theorem Bounded.note (h : s.Bounded) (hfits : Fits s'.depth s'.includeStack)
    (hnestings : s'.nestings = (s'.depth, s'.includeStack) :: s.nestings) : s'.Bounded := by
  refine ⟨?_, by rw [hnestings]; rfl⟩
  rw [hnestings]
  exact List.forall_mem_cons.mpr ⟨hfits, h.fits⟩

/-- Work of any kind, after which an assembly is as asked. -/
structure Advances (r : Regime) (s s' : Assembly) : Prop where
  onward : r.placed → Onward s s'
  carries : Carries r.known r.lasting s s'

/-- Work that keeps within the limits and leaves the nesting as it found it. -/
structure Analyses (r : Regime) (s s' : Assembly) : Prop extends Advances r s s' where
  bounded : s.Bounded → s'.Bounded

/-- Whether a way to work on items is analysis. -/
def Analytic (r : Regime) (f : Assembly → List Item → Assembly) : Prop :=
  ∀ s items, s.Kept r → Analyses r s (f s items)

namespace Advances

theorem kept (h : Advances r s s') : s'.Kept r := ⟨fun hp => (h.onward hp).located, h.carries.orderly⟩

theorem trans (h : Advances r s s') (h' : Advances r s' s'') : Advances r s s'' :=
  ⟨fun hp => (h.onward hp).trans (h'.onward hp), h.carries.trans h'.carries⟩

theorem insideCall (h : Advances r s.openCall s') : Advances r s s'.closeCall := by
  refine ⟨fun hp => ?_, h.carries.insideCall⟩
  have hinside : Onward s s' := ⟨(h.onward hp).located, (h.onward hp).le, (h.onward hp).directives⟩
  exact hinside.trans (hinside.located.around rfl rfl rfl rfl rfl rfl rfl rfl)

theorem insideFile {path : Path} (h : Advances r (s.openFile path) s') : Advances r s s'.closeFile := by
  refine ⟨fun hp => ?_, h.carries.insideFile⟩
  have hinside : Onward s s' := ⟨(h.onward hp).located, (h.onward hp).le, (h.onward hp).directives⟩
  exact hinside.trans (hinside.located.around rfl rfl rfl rfl rfl rfl rfl rfl)

end Advances

theorem Proceeds.advances (h : Proceeds r s s') : Advances r s s' := ⟨h.onward, h.tends.carries⟩

namespace Analyses

theorem trans (h : Analyses r s s') (h' : Analyses r s' s'') : Analyses r s s'' :=
  ⟨h.toAdvances.trans h'.toAdvances, fun hbounded => h'.bounded (h.bounded hbounded)⟩

theorem of_nestings (h : Advances r s s') (hnestings : s'.nestings = s.nestings) : Analyses r s s' := by
  refine ⟨h, fun hbounded => ⟨?_, ?_⟩⟩
  · rw [hnestings]
    exact hbounded.fits
  · rw [hnestings, h.carries.depth, h.carries.includeStack]
    exact hbounded.latest

theorem insideCall (h : Analyses r s.openCall s') (hroom : s.depth < expansionLimit) : Analyses r s s'.closeCall := by
  refine ⟨h.toAdvances.insideCall, fun hbounded => ?_⟩
  have hopen : s.openCall.Bounded := hbounded.note (hbounded.current.call hroom) rfl
  have hclose : Fits s'.closeCall.depth s'.closeCall.includeStack := by
    rw [h.carries.insideCall.depth, h.carries.insideCall.includeStack]
    exact hbounded.current
  exact (h.bounded hopen).note hclose rfl

theorem insideFile {path : Path} (h : Analyses r (s.openFile path) s') (hpath : Includable path s.includeStack) :
    Analyses r s s'.closeFile := by
  refine ⟨h.toAdvances.insideFile, fun hbounded => ?_⟩
  have hopen : (s.openFile path).Bounded := hbounded.note (hbounded.current.file hpath) rfl
  have hclose : Fits s'.closeFile.depth s'.closeFile.includeStack := by
    rw [h.carries.insideFile.depth, h.carries.insideFile.includeStack]
    exact hbounded.current
  exact (h.bounded hopen).note hclose rfl

end Analyses

theorem Proceeds.analyses (h : Proceeds r s s') : Analyses r s s' := .of_nestings h.advances h.tends.nestings

theorem Gains.analyses (h : Gains r.known r.lasting s s' ids scope) (honward : r.placed → Onward s s') :
    Analyses r s s' := .of_nestings ⟨honward, h.carries⟩ h.nestings

theorem analyses_unlessStopped {α : Type} {f : Assembly → α → Assembly}
    (hf : ∀ (s : Assembly) (a : α), s.Kept r → Analyses r s (f s a)) (h : s.Kept r) (l : List α) :
    Analyses r s (l.foldl (fun s a => if s.stopped then s else f s a) s) := by
  induction l generalizing s with
  | nil => exact h.refl.analyses
  | cons a l ih =>
    have hstep : Analyses r s (if s.stopped then s else f s a) := by
      split
      · exact h.refl.analyses
      · exact hf s a h
    exact hstep.trans (ih hstep.kept)

namespace Kept

/-- An assembly is as asked whatever happens to anything that is neither reported nor released. -/
theorem congr (h : s.Kept r) (hsettings : s'.settings = s.settings) (hsources : s'.sources = s.sources)
    (hlines : s'.lines = s.lines) (hsymbols : s'.symbols = s.symbols) (hrecorders : s'.recorders = s.recorders)
    (hunits : s'.units = s.units) (hunsettled : s'.progress.unsettled = s.progress.unsettled)
    (hdiagnostics : s'.diagnostics = s.diagnostics) : s'.Kept r := by
  refine ⟨fun hp => ?_, h.orderly.congr hlines hsymbols hrecorders⟩
  exact ((h.located hp).around hsettings hsources hlines hsymbols hrecorders hunits hunsettled hdiagnostics).located

theorem openCall (h : s.Kept r) : s.openCall.Kept r := h.congr rfl rfl rfl rfl rfl rfl rfl rfl

theorem openFile (h : s.Kept r) (path : Path) : (s.openFile path).Kept r := h.congr rfl rfl rfl rfl rfl rfl rfl rfl

end Kept

/-! ## Declaring -/

namespace Located

theorem items_of_mem_addInclude {root : Path} {source : SourceId} {units : List SourceUnit} {u : SourceUnit}
    (h : u ∈ addInclude.go source root units) : ∃ v ∈ units, v.items = u.items := by
  have hmem : (u.path, u.items) ∈ units.map fun u => (u.path, u.items) := by
    rw [← map_addInclude source root]
    exact List.mem_map_of_mem h
  obtain ⟨v, hv, heq⟩ := List.mem_map.mp hmem
  exact ⟨v, hv, (Prod.mk.inj heq).2⟩

theorem withUnits (h : s.Located) {units : List SourceUnit}
    (hunits : ∀ u ∈ units, s.extent.Ordered (u.items.map Item.id)) : Onward s { s with units } :=
  ⟨⟨h.freeLines, h.freeSources, h.lines, h.whole, h.symbols, h.recorders, hunits, h.unsettled, h.diagnostics⟩, .refl _,
    fun _ _ hd => hd⟩

theorem addInclude (h : s.Located) (source : SourceId) : Onward s (s.addInclude source) := by
  unfold Assembly.addInclude
  split
  · exact h.refl
  · refine h.withUnits fun u hu => ?_
    obtain ⟨v, hv, hitems⟩ := items_of_mem_addInclude hu
    exact hitems ▸ h.units v hv

end Located

namespace Kept

/-- What including a text does: new lines are taken in, declared one file deeper, and kept by the directive. -/
theorem includeText_spec (h : s.Kept r) (declare : Assembly → List Item → Assembly) (id : LineId) (path : Path)
    (text : String) : ∃ u ids scope, Gains r.known r.lasting s u ids scope ∧
      (r.placed → Onward s u ∧ u.extent.Ordered ids) ∧
      includeText declare s id path text =
        (declare ((u.openFile path).arrange ids).2 ((u.openFile path).arrange ids).1).closeFile.setDirectiveState id
          (.included path ((u.openFile path).arrange ids).1) := by
  have hload := h.orderly.loadSource path text
  have hread := fun hp => (h.located hp).loadSource path text
  unfold includeText
  generalize s.loadSource path text = loaded at hload hread ⊢
  obtain ⟨⟨source, scope, ids⟩, s1⟩ := loaded
  have hinclude := hload.append (hload.carries.orderly.addInclude source scope)
  rw [List.append_nil] at hinclude
  refine ⟨_, ids, scope, hinclude, fun hp => ?_, rfl⟩
  have hadd := (hread hp).1.located.addInclude source
  exact ⟨(hread hp).1.trans hadd, (hread hp).2.mono hadd.le⟩

theorem keepLines (h : s.Kept r) (id : LineId) (state : DirectiveState) (hstate : r.placed → state.Placed s.extent)
    (hlabels : state.labels = []) : Analyses r s (s.setDirectiveState id state) := by
  refine .of_nestings ⟨fun hp => (h.located hp).setDirectiveState id (hstate hp), h.orderly.attach id ?_ ?_⟩ rfl
  · unfold Line.modifyCommand
    split <;> rfl
  unfold Line.modifyCommand
  split
  · change state.labels ⊆ _
    rw [hlabels]
    exact List.nil_subset _
  · exact List.Subset.refl _

end Kept

theorem analyses_includeText {declare : Assembly → List Item → Assembly} (hdeclare : Analytic r declare)
    (h : s.Kept r) (id : LineId) {path : Path} (hpath : Includable path s.includeStack) (text : String) :
    Analyses r s (includeText declare s id path text) := by
  obtain ⟨u, ids, scope, hgains, hread, heq⟩ := h.includeText_spec declare id path text
  rw [heq]
  have hload := hgains.analyses fun hp => (hread hp).1
  have hpath' : Includable path u.includeStack := by
    rw [hgains.carries.includeStack]
    exact hpath
  have harrange := ((hload.kept.openFile path).arrange ids fun hp => (hread hp).2).1
  generalize (u.openFile path).arrange ids = arranged at harrange ⊢
  have hinside := (harrange.analyses.trans (hdeclare _ arranged.1 harrange.kept)).insideFile hpath'
  exact (hload.trans hinside).trans (hinside.kept.keepLines id _ (fun _ => trivial) rfl)

/-- Whether the scope of a line is that of a macro call. -/
def CalledIn (s : Assembly) (id : LineId) : Prop := (s.symbols.scope (s.line id).scope).kind = .call

theorem inCall_of_calledIn (h : s.CalledIn id) : s.inCall id = true := by
  unfold inCall inCallWithin
  rw [h]
  rfl

namespace Kept

theorem declareInclude_cases (h : s.Kept r) (declare : Assembly → List Item → Assembly)
    (hid : r.placed → id < s.lines.size) {part : Line.CommandPart} (hpart : r.placed → part.Placed s.extent) :
    Proceeds r s (declareInclude declare s id part) ∨
      ∃ s1 path text, Proceeds r s s1 ∧ Includable path s1.includeStack ∧
        declareInclude declare s id part = includeText declare s1 id path text := by
  have hargument := h.fileArgument id hpart
  unfold declareInclude
  split
  · rename_i s1 heq
    rw [heq] at hargument
    exact .inl hargument
  rename_i name s1 heq
  rw [heq] at hargument
  have hfound := hargument.trans (hargument.kept.locate (hargument.lt hid) name)
  split
  · rename_i s2 heq'
    rw [heq'] at hfound
    exact .inl hfound
  rename_i path data s2 heq'
  rw [heq'] at hfound
  have horigin := hfound.kept.origin (hfound.lt hid)
  simp only
  split
  · exact .inl (hfound.trans (hfound.kept.failAt id horigin _))
  rename_i hcycle
  split
  · exact .inl (hfound.trans (hfound.kept.failAt id horigin _))
  rename_i hlimit
  have hread := hfound.kept.noteReading path
  split
  · exact .inl ((hfound.trans hread).trans (hread.kept.failAt id (hread.inside horigin) _))
  · refine .inr ⟨_, path, _, hfound.trans hread, ?_, rfl⟩
    rw [hread.tends.includeStack]
    refine ⟨Nat.lt_of_not_le hlimit, fun p hp => ?_⟩
    rw [Bool.not_eq_true, List.any_eq_false] at hcycle
    exact Bool.eq_false_iff.mpr (hcycle p hp)

/-- No file is included by a line of a macro call. -/
theorem declareLine_cases (h : s.Kept r) (declare : Assembly → List Item → Assembly) (id : LineId) :
    Proceeds r s (declareLine declare s id) ∨
      ∃ s1 path text, Proceeds r s s1 ∧ Includable path s1.includeStack ∧ (r.known → ¬ s.CalledIn id) ∧
        declareLine declare s id = includeText declare s1 id path text := by
  unfold declareLine
  simp only
  split
  · exact .inl h.refl
  split
  · exact .inl (h.defineLineLabel id)
  · rename_i part hkind
    have hpart : (s.line id).command? = some part := by rw [Line.command?, hkind]
    have hdirective : s.directives id = some part.directive := by rw [Assembly.directives, Line.directive?, hpart]; rfl
    have hid : r.placed → id < s.lines.size := fun _ => lt_size_of_command hpart
    have harguments := h.checkArguments id
    unfold declareCommand
    simp only
    split
    · exact .inl harguments
    have hplacement := harguments.trans (harguments.kept.checkPlacement (harguments.lt hid) part.directive)
    split
    · rename_i s1 heq
      rw [heq] at hplacement
      exact .inl hplacement
    rename_i s1 heq
    rw [heq] at hplacement
    have hstep := hplacement.trans (hplacement.kept.defineLineLabel id)
    have hnow := hstep.placed fun hp => ((h.located hp).lines id).command hpart
    have hgroup : part.directive.isGroup = true → Proceeds r s ((s1.defineLineLabel id).declareGroup id part) :=
      fun hgroup => hstep.trans (hstep.kept.declareGroup id
        (fun hp => (ordered_body (h.located hp) hpart).mono (hstep.le hp))
        fun hp => ⟨part.directive, (hstep.onward hp).directives id _ hdirective, hgroup⟩)
    split
    · exact .inl (hstep.trans (hstep.kept.declareConstant id hnow))
    · exact .inl (hstep.trans (hstep.kept.declareEnumeration id hnow))
    · rename_i hd
      exact .inl (hgroup (by rw [hd]; rfl))
    · rename_i hd
      exact .inl (hgroup (by rw [hd]; rfl))
    · rename_i hd
      exact .inl (hgroup (by rw [hd]; rfl))
    · rename_i hd
      exact .inl (hstep.trans (hstep.kept.declareMacro id (fun _ => hd) hnow))
    · rename_i hd
      rcases hstep.kept.declareInclude_cases declare (hstep.lt hid) hnow with
        hinPlace | ⟨s2, path, text, hs2, hpath, heq'⟩
      · exact .inl (hstep.trans hinPlace)
      refine .inr ⟨s2, path, text, hstep.trans hs2, hpath, fun hk hcalled => ?_, heq'⟩
      -- the placement of the line was refused
      have hcalled' : (s.checkArguments id).CalledIn id := by
        rw [CalledIn, harguments.tends.scope, (harguments.tends.symbols hk).kind]
        exact hcalled
      rw [Assembly.checkPlacement, inCall_of_calledIn hcalled', hd] at heq
      cases heq
    · exact .inl hstep
  · rename_i part hkind
    refine .inl (h.declareVariable id fun hp => ?_)
    have htokens := ((h.located hp).lines id).tokens
    rw [hkind] at htokens
    exact htokens _ List.mem_cons_self
  · exact .inl h.refl

end Kept

theorem analyses_declareWithin (b : Budget) : Analytic r (declareWithin b) := by
  induction b with
  | spent => exact fun s _ h => h.refl.analyses
  | left calls files _ ih =>
    intro s items h
    unfold declareWithin
    refine analyses_unlessStopped (fun s (item : Item) h => ?_) h items
    rcases h.declareLine_cases (declareWithin files) item.id with hinPlace | ⟨s1, path, text, hs1, hpath, -, heq⟩
    · exact hinPlace.analyses
    · rw [heq]
      exact hs1.analyses.trans (analyses_includeText ih hs1.kept item.id hpath text)

/-! ## Macro calls -/

/-- What a call keeps when it is expanded. -/
def setExpansion (s : Assembly) (id : LineId) (expansion : Line.Expansion) : Assembly :=
  s.modifyLine id fun l =>
    match l.kind with
    | .call part => { l with kind := .call { part with expansion := some expansion } }
    | _ => l

namespace Kept

theorem setExpansion (h : s.Kept r) (id : LineId) (expansion : Line.Expansion) :
    Analyses r s (s.setExpansion id expansion) := by
  refine .of_nestings ⟨fun hp => ?_, h.orderly.attach id ?_ ?_⟩ rfl
  · exact (h.located hp).modifyCall id (f := fun part => { part with expansion := some expansion }) fun _ => ⟨rfl, rfl⟩
  · split <;> rfl
  · split
    · exact List.nil_subset _
    · exact List.Subset.refl _

/-- What expanding a macro does: nothing goes deeper, or new lines are taken into a scope of the call, settled one
call deeper, and kept. -/
theorem expand_spec (h : s.Kept r) (settle : Assembly → List Item → Assembly) (id : LineId) (name : Token)
    (hname : r.placed → name.Inside s.extent) (count : Nat) :
    (∃ scope, Gains r.known r.lasting s (expand settle s id name count) [] scope ∧
      (r.placed → Onward s (expand settle s id name count))) ∨
      ∃ u ids scope parameters, Gains r.known r.lasting s u ids scope ∧
        (r.placed → Onward s u ∧ u.extent.Ordered ids) ∧ u.depth < expansionLimit ∧
        (r.known → u.symbols.InUse scope ∧ (u.symbols.scope scope).kind = .call) ∧
        expand settle s id name count =
          (settle (u.openCall.arrange ids).2 (u.openCall.arrange ids).1).closeCall.setExpansion id
            ⟨parameters, (u.openCall.arrange ids).1⟩ := by
  have hfail : ∀ message, ∃ scope, Gains r.known r.lasting s (s.fail id name.span message) [] scope ∧
      (r.placed → Onward s (s.fail id name.span message)) := fun message =>
    ⟨globalScope, (h.failAt id hname message).tends.gains _, (h.failAt id hname message).onward⟩
  unfold expand
  simp only
  split
  · exact .inl (hfail _)
  rename_i m hm
  split
  · exact .inl (hfail _)
  split
  · exact .inl (hfail _)
  rename_i hlimit
  have hplaced := fun hp => (h.located hp).symbols.macros m (SymbolTable.Placed.mem_macros hm)
  have hadd := fun scope => h.orderly.addScope .call (s.line id).scope
    (s.symbols.scope (s.line id).scope).source (fun hk => ⟨h.inUse id hk, .inr rfl⟩) scope
  have honward := fun hp => (h.located hp).addScope .call (s.line id).scope (s.symbols.scope (s.line id).scope).source
  generalize s.symbols.addScope .call (s.line id).scope (s.symbols.scope (s.line id).scope).source = added
    at hadd honward ⊢
  obtain ⟨scope, symbols⟩ := added
  obtain ⟨hscope, hnew⟩ := hadd scope
  have hmade := (hscope.analyses honward).kept
  have hparameters := hmade.defineParameters id (fun hk => (hnew hk).1) fun hp p hmem =>
    ((hplaced hp).parameters p hmem).mono (honward hp).le
  simp only
  split
  · rename_i s1 heq
    rw [heq] at hparameters
    exact .inl ⟨scope, hscope.tends hparameters.tends, fun hp => (honward hp).trans (hparameters.onward hp)⟩
  rename_i parameters s1 heq
  rw [heq] at hparameters
  have hcopy := hparameters.tends.orderly.copyLines m.body (hparameters.inUse fun hk => (hnew hk).1)
  have hgains := (hscope.tends hparameters.tends).append hcopy
  rw [List.nil_append] at hgains
  refine .inr ⟨_, _, scope, parameters, hgains, fun hp => ?_, ?_, fun hk => ?_, rfl⟩
  · have hcall := (honward hp).trans (hparameters.onward hp)
    obtain ⟨hcopied, hids⟩ := hcall.located.copyLines ((hplaced hp).body.mono hcall.le) scope
    exact ⟨hcall.trans hcopied, hids⟩
  · rw [hgains.carries.depth]
    exact Nat.lt_of_not_le hlimit
  · refine ⟨hparameters.inUse (fun hk => (hnew hk).1) hk, ?_⟩
    exact ((hparameters.tends.symbols hk).kind scope).trans (hnew hk).2

end Kept

theorem analyses_expand {settle : Assembly → List Item → Assembly} (hsettle : Analytic r settle) (h : s.Kept r)
    (id : LineId) (name : Token) (hname : r.placed → name.Inside s.extent) (count : Nat) :
    Analyses r s (expand settle s id name count) := by
  rcases h.expand_spec settle id name hname count with
    ⟨scope, hgains, honward⟩ | ⟨u, ids, scope, parameters, hgains, hcopied, hroom, -, heq⟩
  · exact hgains.analyses honward
  rw [heq]
  have hcopy := hgains.analyses fun hp => (hcopied hp).1
  have harrange := (hcopy.kept.openCall.arrange ids fun hp => (hcopied hp).2).1
  generalize u.openCall.arrange ids = arranged at harrange ⊢
  have hinside := (harrange.analyses.trans (hsettle _ arranged.1 harrange.kept)).insideCall hroom
  exact (hcopy.trans hinside).trans (hinside.kept.setExpansion id _)

/-! ## Resolving -/

theorem cuts_of_macroWord {text : String} {word : Piece} (h : s.macroWord? text = some word) :
    word.Cuts text.toList := by
  obtain ⟨w, hw, rfl⟩ := Option.map_eq_some_iff.mp h
  obtain ⟨p, hp, rfl⟩ := List.mem_map.mp (List.mem_of_find?_eq_some hw)
  exact Piece.cuts_of_mem_scan (List.mem_filter.mp hp).1

namespace Kept

theorem settleLine (h : s.Kept r) (hid : r.placed → id < s.lines.size) (hunknown : (s.line id).kind = .unknown)
    (label : Option Token) (kind : Line.Kind) (hlabel : ∀ t ∈ label, t.PartOf (s.line id).origin)
    (htokens : ∀ t ∈ kind.tokens, t.PartOf (s.line id).origin) (hkind : kind.Placed s.extent)
    (hother : ({ s.line id with label, kind } : Line).command? = none)
    (hnested : ({ s.line id with label, kind } : Line).nested = []) :
    Proceeds r s (s.modifyLine id fun l => { l with label, kind }) := by
  refine ⟨fun hp => ?_, h.orderly.tend id (.of_bare rfl hnested ?_)⟩
  · have horigin := (h.located hp).origins id (hid hp)
    refine (h.located hp).modifyLine id rfl (.of_other (fun t ht => horigin.part (hlabel t ht))
      (fun t ht => horigin.part (htokens t ht)) hkind hother) fun d hd => ?_
    rw [Line.directive?, Line.command?, hunknown] at hd
    cases hd
  · unfold Line.branchLabels
    unfold Line.command? at hother
    split
    · rename_i part hpart
      rw [hpart] at hother
      cases hother
    · rfl

/-- An unknown line becomes a call, which is expanded, or all that is done is work in place. A call or a label is made
of parts of its line. -/
theorem resolveUnknown_cases (h : s.Kept r) (settle : Assembly → List Item → Assembly)
    (hid : r.placed → id < s.lines.size) (hunknown : (s.line id).kind = .unknown) :
    Proceeds r s (resolveUnknown settle s id) ∨
      ∃ s1 name count, Proceeds r s s1 ∧ (r.placed → name.Inside s1.extent) ∧
        resolveUnknown settle s id = expand settle s1 id name count := by
  have horigin := h.origin hid
  unfold resolveUnknown
  simp only
  split
  · rename_i word hword
    obtain ⟨before, piece, after, htext, hstart, hstop⟩ := cuts_of_macroWord hword
    have hname : ((s.line id).origin.slice word.start word.stop).PartOf (s.line id).origin :=
      Token.partOf_slice before htext hstart hstop
    have hrest : ((s.line id).origin.sliceFrom word.stop).PartOf (s.line id).origin :=
      Token.partOf_sliceFrom (before ++ piece) htext (hstop.trans (Text.byteLength_append _ _).symm)
    have hlabel : ∀ t ∈ labelBefore (s.line id).origin word.start, t.PartOf (s.line id).origin := fun t ht => by
      rw [List.append_assoc] at htext
      exact partOf_labelBefore htext hstart ht
    have harguments : ∀ t ∈ ((s.line id).origin.sliceFrom word.stop).splitTopLevel ',', t.PartOf (s.line id).origin :=
      fun t ht => (Token.PartOf.of_mem_splitTopLevel ht).trans hrest
    generalize (s.line id).origin.slice word.start word.stop = name at hname ⊢
    generalize ((s.line id).origin.sliceFrom word.stop).splitTopLevel ',' = arguments at harguments ⊢
    have hcall := h.settleLine hid hunknown _ (.call { name, arguments }) hlabel
      (List.forall_mem_cons.mpr ⟨hname, harguments⟩) trivial rfl rfl
    have hstep := hcall.trans (hcall.kept.defineLineLabel id)
    exact .inr ⟨_, name, _, hstep, hstep.inside fun hp => (horigin hp).part hname, rfl⟩
  · split
    · rename_i label hlabel
      have hpart : ∀ t ∈ some label, t.PartOf (s.line id).origin := by
        rintro _ ⟨⟩
        refine partOf_labelBefore (List.append_nil _).symm ?_ (Option.filter_eq_some_iff.mp hlabel).1
        exact (Text.byteLength_toList _).symm
      have hsettled := h.settleLine hid hunknown (some label) .label hpart nofun trivial rfl rfl
      exact .inl (hsettled.trans (hsettled.kept.defineLineLabel id))
    · exact .inl (h.failAt id (fun hp => (horigin hp).part (Token.partOf_splitFirstWord _).1) _)

/-- A line is settled in place, or with the lines of the file it includes, or as a call that is expanded. -/
theorem resolveLine_cases (h : s.Kept r) (settle resolve : Assembly → List Item → Assembly) (id : LineId) :
    Proceeds r s (resolveLine settle resolve s id) ∨
      (∃ path items, (some path, items) ∈ (s.line id).nested ∧ resolveLine settle resolve s id = resolve s items) ∨
      ∃ s1 name count, Proceeds r s s1 ∧ (r.placed → name.Inside s1.extent) ∧
        resolveLine settle resolve s id = expand settle s1 id name count := by
  unfold resolveLine
  simp only
  split
  · exact .inl h.refl
  rename_i hskipped
  split
  · rename_i hkind
    exact (h.resolveUnknown_cases settle (fun _ => lt_size_of_not_skipped hskipped) hkind).imp_right .inr
  · rename_i part hkind
    split
    · rename_i path items hstate
      refine .inr (.inl ⟨path, items, ?_, rfl⟩)
      rw [Line.nested, hkind]
      change _ ∈ part.state.nested
      rw [hstate]
      exact List.mem_singleton_self _
    · exact .inl h.refl
  · exact .inl h.refl

end Kept

theorem Analytic.settle {resolve : Assembly → List Item → Assembly} (hresolve : Analytic r resolve) (b : Budget) :
    Analytic r fun s items => resolve (declareWithin b s items) items := by
  intro s items h
  have hdeclare := analyses_declareWithin b s items h
  exact hdeclare.trans (hresolve _ items hdeclare.kept)

theorem analyses_resolveWithin (b : Budget) : Analytic r (resolveWithin b) := by
  induction b with
  | spent => exact fun s _ h => h.refl.analyses
  | left calls files ihcalls ihfiles =>
    intro s items h
    unfold resolveWithin
    refine analyses_unlessStopped (fun s (item : Item) h => ?_) h items
    rcases h.resolveLine_cases _ (resolveWithin files) item.id with hinPlace | ⟨path, inner, -, heq⟩ |
      ⟨s1, name, count, hs1, hname, heq⟩
    · exact hinPlace.analyses
    · rw [heq]
      exact ihfiles s inner h
    · rw [heq]
      exact hs1.analyses.trans (analyses_expand (ihcalls.settle calls) hs1.kept item.id name hname count)

/-! ## All phases -/

theorem analyses_analyze : Analytic r analyze := by
  intro s items h
  have hresolve := (analyses_resolveWithin .full).settle .full s items h
  exact hresolve.trans (Kept.parseWithin .full _ items hresolve.kept).analyses

end CrossAssembler.Assembly
