import CrossAssembler.Proofs.Assembly.Soundness
import CrossAssembler.Proofs.Scopes.Chains

/-!
# Work in place

Most of the work neither makes scopes nor puts lines below others, and leaves the nesting alone.

Principal results: `Orderly.arrange`, `Orderly.parseExpression`, `Orderly.evaluate` and the other lemmas of
`Orderly`.
-/

namespace CrossAssembler

/-- The lists of lines below a directive, where all iterations of a repetition make one list. Those of an included
file come with its path. -/
def DirectiveState.nested : DirectiveState → List (Option Path × List Item)
  | .repeated iterations => (iterations.map fun lists => (Option.none, lists.flatten)).toList
  | .included path items => [(some path, items)]
  | _ => []

/-- The labels that the branches of a conditional made. -/
def DirectiveState.labels : DirectiveState → List LabelId
  | .branches state => state.bound.flatten
  | _ => []

namespace Line

/-- The lists of lines below a line. Those of an included file come with its path. -/
def nested (l : Line) : List (Option Path × List Item) :=
  match l.kind with
  | .call part => (part.expansion.map fun e => (none, e.items)).toList
  | .command part => part.state.nested
  | _ => []

/-- The labels that the branches of a conditional made. -/
def branchLabels (l : Line) : List LabelId :=
  match l.kind with
  | .command part => part.state.labels
  | _ => []

/-- Whether a change puts no lines below a line and leaves it in its scope. -/
structure Tended (l l' : Line) : Prop where
  scope : l'.scope = l.scope
  nested : l'.nested ⊆ l.nested
  labels : l'.branchLabels ⊆ l.branchLabels

theorem Tended.refl (l : Line) : Tended l l := ⟨rfl, fun _ h => h, fun _ h => h⟩

theorem Tended.of_kind {l l' : Line} (hscope : l'.scope = l.scope) (hkind : l'.kind = l.kind) : Tended l l' := by
  refine ⟨hscope, ?_, ?_⟩
  · rw [Line.nested, Line.nested, hkind]
    exact fun _ h => h
  · rw [branchLabels, branchLabels, hkind]
    exact fun _ h => h

theorem Tended.of_bare {l l' : Line} (hscope : l'.scope = l.scope) (hnested : l'.nested = [])
    (hlabels : l'.branchLabels = []) : Tended l l' :=
  ⟨hscope, hnested ▸ List.nil_subset _, hlabels ▸ List.nil_subset _⟩

theorem tended_mark (l : Line) (state : LineState) : Tended l (l.mark state) := by
  unfold mark
  split
  · exact .of_kind rfl rfl
  · exact .of_kind rfl rfl
  · exact .refl l

theorem tended_modifyCommand (l : Line) {f : CommandPart → CommandPart} (hf : ∀ part, l.command? = some part →
      (f part).state.nested ⊆ part.state.nested ∧ (f part).state.labels ⊆ part.state.labels) :
    Tended l (l.modifyCommand f) := by
  unfold modifyCommand
  split
  · rename_i part hpart
    obtain ⟨hnested, hlabels⟩ := hf part (by rw [command?, hpart])
    refine ⟨rfl, ?_, ?_⟩
    · rw [Line.nested, Line.nested, hpart]
      exact hnested
    · rw [branchLabels, branchLabels, hpart]
      exact hlabels
  · exact .refl l

end Line

/-- Whether each free number is listed once, and no line is left behind there. -/
def Arena.Idle (a : Arena) : Prop := a.free.Nodup ∧ ∀ id ∈ a.free, (a.get id).scope = globalScope

namespace Assembly

/-- Whether scopes are in order: the symbols are rooted and lines are in scopes in use. Where nothing is ever
released, the labels kept for later are labels. -/
structure Scoped (lasting : Prop) (s : Assembly) : Prop where
  symbols : s.symbols.Rooted
  lines : ∀ id, s.symbols.InUse (s.line id).scope
  idle : s.lines.Idle
  kept : lasting → s.lines.free = [] ∧ s.symbols.freeLabels = [] ∧ s.symbols.freeScopes = []
  recorders : lasting → ∀ labels ∈ s.recorders, ∀ label ∈ labels, label < s.symbols.labels.size
  branches : lasting → ∀ id, ∀ label ∈ (s.line id).branchLabels, label < s.symbols.labels.size

/-- Whether scopes are in order, if `known` holds. -/
def Orderly (known lasting : Prop) (s : Assembly) : Prop := known → s.Scoped lasting

/-- Work in place: nothing is opened or closed, no line is put below another, and scopes stay in order. -/
structure Tends (known lasting : Prop) (s s' : Assembly) : Prop where
  depth : s'.depth = s.depth
  includeStack : s'.includeStack = s.includeStack
  nestings : s'.nestings = s.nestings
  units : s'.units = s.units
  size : s'.lines.size = s.lines.size
  scope : ∀ id, (s'.line id).scope = (s.line id).scope
  nested : ∀ id, (s'.line id).nested ⊆ (s.line id).nested
  orderly : s'.Orderly known lasting
  symbols : known → s.symbols.Retains s'.symbols

variable {known lasting : Prop} {s s' : Assembly} {id : LineId} {scope : ScopeId}

theorem Tends.trans {s'' : Assembly} (h : Tends known lasting s s') (h' : Tends known lasting s' s'') :
    Tends known lasting s s'' where
  depth := h'.depth.trans h.depth
  includeStack := h'.includeStack.trans h.includeStack
  nestings := h'.nestings.trans h.nestings
  units := h'.units.trans h.units
  size := h'.size.trans h.size
  scope id := (h'.scope id).trans (h.scope id)
  nested id := List.Subset.trans (h'.nested id) (h.nested id)
  orderly := h'.orderly
  symbols hk := (h.symbols hk).trans (h'.symbols hk)

theorem Tends.andThen {s'' : Assembly} (h : Tends known lasting s s')
    (hnext : s'.Orderly known lasting → Tends known lasting s' s'') : Tends known lasting s s'' :=
  h.trans (hnext h.orderly)

theorem Tends.inUse (h : Tends known lasting s s') (hscope : known → s.symbols.InUse scope) :
    known → s'.symbols.InUse scope := fun hk => ((h.symbols hk).inUse_iff scope).mpr (hscope hk)

namespace Orderly

variable (h : s.Orderly known lasting)
variable {f : Line → Line}

include h

/-! ## Small steps -/

theorem refl : Tends known lasting s s :=
  ⟨rfl, rfl, rfl, rfl, rfl, fun _ => rfl, fun _ => List.Subset.refl _, h, fun _ => .refl _⟩

theorem inUse (id : LineId) : known → s.symbols.InUse (s.line id).scope := fun hk => (h hk).lines id

theorem congr (hlines : s'.lines = s.lines) (hsymbols : s'.symbols = s.symbols)
    (hrecorders : s'.recorders = s.recorders) : s'.Orderly known lasting := by
  intro hk
  have hs := h hk
  have hline : ∀ id, s'.line id = s.line id := fun id => by rw [line, line, hlines]
  refine ⟨hsymbols ▸ hs.symbols, fun id => ?_, hlines ▸ hs.idle, ?_, ?_, fun hlasting id => ?_⟩
  · rw [hsymbols, hline]
    exact hs.lines id
  · rw [hlines, hsymbols]
    exact hs.kept
  · rw [hrecorders, hsymbols]
    exact hs.recorders
  · rw [hline, hsymbols]
    exact hs.branches hlasting id

theorem around (hlines : s'.lines = s.lines) (hsymbols : s'.symbols = s.symbols)
    (hrecorders : s'.recorders = s.recorders) (hunits : s'.units = s.units) (hdepth : s'.depth = s.depth)
    (hstack : s'.includeStack = s.includeStack) (hnestings : s'.nestings = s.nestings) :
    Tends known lasting s s' := by
  have hline : ∀ id, s'.line id = s.line id := fun id => by rw [line, line, hlines]
  exact ⟨hdepth, hstack, hnestings, hunits, by rw [hlines], fun id => by rw [hline],
    fun id => by rw [hline]; exact List.Subset.refl _, h.congr hlines hsymbols hrecorders,
    fun _ => by rw [hsymbols]; exact .refl _⟩

omit h in
theorem scope_modifyLine (id : LineId) (hscope : (f (s.line id)).scope = (s.line id).scope)
    (j : LineId) : ((s.modifyLine id f).line j).scope = (s.line j).scope := by
  rw [line_modifyLine]
  split
  · rename_i heq
    rw [heq.1]
    exact hscope
  · rfl

theorem change (id : LineId) (hscope : (f (s.line id)).scope = (s.line id).scope)
    (hlabels : known → lasting → ∀ label ∈ (f (s.line id)).branchLabels, label < s.symbols.labels.size) :
    (s.modifyLine id f).Orderly known lasting := by
  intro hk
  have hs := h hk
  have hkeeps := scope_modifyLine id hscope
  refine ⟨hs.symbols, fun j => ?_, ⟨hs.idle.1, fun j hj => (hkeeps j).trans (hs.idle.2 j hj)⟩, hs.kept, hs.recorders,
    fun hlasting j => ?_⟩
  · rw [hkeeps]
    exact hs.lines j
  rw [line_modifyLine]
  split
  · rename_i heq
    rw [heq.1]
    exact hlabels hk hlasting
  · exact hs.branches hlasting j

theorem modifyLine (id : LineId) (hscope : (f (s.line id)).scope = (s.line id).scope)
    (hnested : (f (s.line id)).nested ⊆ (s.line id).nested)
    (hlabels : known → lasting → ∀ label ∈ (f (s.line id)).branchLabels, label < s.symbols.labels.size) :
    Tends known lasting s (s.modifyLine id f) := by
  refine ⟨rfl, rfl, rfl, rfl, size_modifyLine s id f, scope_modifyLine id hscope, fun j => ?_,
    h.change id hscope hlabels, fun _ => .refl _⟩
  rw [line_modifyLine]
  split
  · rename_i heq
    rw [heq.1]
    exact hnested
  · exact List.Subset.refl _

theorem tend (id : LineId) (hf : (s.line id).Tended (f (s.line id))) : Tends known lasting s (s.modifyLine id f) :=
  h.modifyLine id hf.scope hf.nested fun hk hlasting label hlabel =>
    (h hk).branches hlasting id label (hf.labels hlabel)

theorem mark (id : LineId) (state : LineState) : Tends known lasting s (s.mark id state) :=
  h.tend id (Line.tended_mark _ state)

theorem report (d : Diagnostic) : Tends known lasting s (s.report d) := h.around rfl rfl rfl rfl rfl rfl rfl

theorem fail (id : LineId) (span : Span) (message : String) : Tends known lasting s (s.fail id span message) := by
  exact (h.report _).andThen fun h => h.mark id .error

theorem symbolError (id : LineId) (e : SymbolError) (span : Span) :
    Tends known lasting s (s.symbolError id e span) := by
  exact (h.report _).andThen fun h => h.mark id .error

theorem setDirectiveState (id : LineId) {state : DirectiveState} (hnested : state.nested = [])
    (hlabels : state.labels = []) : Tends known lasting s (s.setDirectiveState id state) := by
  refine h.tend id (Line.tended_modifyCommand _ fun part _ => ⟨?_, ?_⟩)
  · exact hnested ▸ List.nil_subset _
  · exact hlabels ▸ List.nil_subset _

theorem setBranches (id : LineId) (state : BranchState)
    (hlabels : known → lasting → ∀ label ∈ state.bound.flatten, label < s.symbols.labels.size) :
    Tends known lasting s (s.setDirectiveState id (.branches state)) := by
  unfold Assembly.setDirectiveState
  refine h.modifyLine id ?_ ?_ fun hk hlasting => ?_
  · unfold Line.modifyCommand
    split <;> rfl
  · unfold Line.modifyCommand
    split
    · exact List.nil_subset _
    · exact List.Subset.refl _
  · have hbranches := (h hk).branches hlasting id
    unfold Line.modifyCommand Line.branchLabels at *
    split
    · rename_i part hpart
      split at hpart
      · cases hpart
        exact hlabels hk hlasting
      · rename_i hother
        exact absurd hpart (hother part)
    · exact fun _ hmem => absurd hmem List.not_mem_nil

/-! ## Symbols -/

theorem withSymbols {symbols : SymbolTable} (hr : known → s.symbols.Retains symbols) :
    Tends known lasting s { s with symbols } := by
  refine ⟨rfl, rfl, rfl, rfl, rfl, fun _ => rfl, fun _ => List.Subset.refl _, fun hk => ?_, hr⟩
  have hs := h hk
  have hretains := hr hk
  refine ⟨hretains.rooted hs.symbols, fun id => (hretains.inUse_iff _).mpr (hs.lines id), hs.idle, fun hlasting => ?_,
    fun hlasting labels hlabels label hlabel => ?_, fun hlasting id label hlabel => ?_⟩
  · obtain ⟨hlines, hfreeLabels, hfreeScopes⟩ := hs.kept hlasting
    exact ⟨hlines, hretains.freeLabels hfreeLabels, hretains.free.trans hfreeScopes⟩
  · exact Nat.lt_of_lt_of_le (hs.recorders hlasting labels hlabels label hlabel) hretains.labels
  · exact Nat.lt_of_lt_of_le (hs.branches hlasting id label hlabel) hretains.labels

theorem defineLabel (id : LineId) (token : Token) (hscope : known → s.symbols.InUse scope) (kind : LabelKind)
    (allow : Bool) : Tends known lasting s (s.defineLabel id token scope kind allow).2 ∧
      ∀ label ∈ (s.defineLabel id token scope kind allow).1,
        known → label ∉ (s.defineLabel id token scope kind allow).2.symbols.freeLabels := by
  unfold Assembly.defineLabel
  split
  · exact ⟨h.fail id _ _, fun _ hlabel => absurd hlabel (Option.not_mem_none _)⟩
  split
  · rename_i label symbols hmade
    have hmade' : known → s.symbols.Retains symbols ∧ label < symbols.labels.size ∧ label ∉ symbols.freeLabels :=
      fun hk => SymbolTable.Retains.createLabel (h hk).symbols (hscope hk) hmade
    have hsymbols := h.withSymbols fun hk => (hmade' hk).1
    refine ⟨⟨rfl, rfl, rfl, rfl, rfl, fun _ => rfl, fun _ => List.Subset.refl _, fun hk => ?_, hsymbols.symbols⟩, ?_⟩
    · obtain ⟨hrooted, hlines, hidle, hkept, hrecorders, hbranches⟩ := hsymbols.orderly hk
      refine ⟨hrooted, hlines, hidle, hkept, fun hlasting => List.forall_mem_map.mpr fun labels hlabels => ?_, hbranches⟩
      exact List.forall_mem_cons.mpr ⟨(hmade' hk).2.1, hrecorders hlasting labels hlabels⟩
    · rintro _ ⟨⟩ hk
      exact (hmade' hk).2.2
  · exact ⟨h.symbolError id _ _, fun _ hlabel => absurd hlabel (Option.not_mem_none _)⟩

theorem setDoc {label : LabelId} (hlabel : known → label ∉ s.symbols.freeLabels) (doc : Option String) :
    Tends known lasting s (s.setDoc label doc) :=
  h.withSymbols fun hk => .modifyLabel (hlabel hk) fun _ => ⟨rfl, rfl, rfl, rfl, rfl⟩

theorem setLabelValue {label : LabelId} (hlabel : known → label ∉ s.symbols.freeLabels) (value : Option Value) :
    Tends known lasting s (s.setLabelValue label value) := by
  have hsymbols := h.withSymbols fun hk => .setValue (hlabel hk) value
  unfold Assembly.setLabelValue
  simp only
  split
  · split
    · exact hsymbols.trans (hsymbols.orderly.around rfl rfl rfl rfl rfl rfl rfl)
    · exact hsymbols.trans (hsymbols.orderly.around rfl rfl rfl rfl rfl rfl rfl)
  · exact hsymbols

theorem addReferences (source : SourceId) (e : Expression) : Tends known lasting s (s.addReferences source e) := by
  refine h.withSymbols fun _ => ?_
  have hall : ∀ (f : SymbolTable → Reference × Nat × Nat → SymbolTable), (∀ (t : SymbolTable) r, t.Retains (f t r)) →
      ∀ (rs : List (Reference × Nat × Nat)) (t : SymbolTable), t.Retains (rs.foldl f t) := by
    intro f hf rs
    induction rs with
    | nil => exact fun t => .refl t
    | cons r rs ih => exact fun t => (hf t r).trans (ih _)
  refine hall _ (fun t r => ?_) _ _
  split
  · exact .addReference t source _
  · exact .refl t

end Orderly

end Assembly

end CrossAssembler
