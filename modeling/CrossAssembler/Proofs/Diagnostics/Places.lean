import CrossAssembler.Proofs.Diagnostics.Spans
import CrossAssembler.Proofs.Symbol.Visibility

/-!
# What lines and symbols point to

Whatever is reported is reported at a token of a line, at a part of one, or at a label. So it is enough to know of
all of them that they lie in the texts of their sources.

Principal results: `placed_of_mem_classifySource` — lines do when they are read; `SymbolTable.Placed.createLabel` —
labels do when they are made.
-/

namespace CrossAssembler

/-! ## Lines -/

/-- Whether what a directive keeps lies in the sources. -/
def DirectiveState.Placed (e : Extent) : DirectiveState → Prop
  | .branches state => ∀ ids ∈ state.bound, ∀ id ∈ ids, id < e.labels
  | .enumeration rows => ∀ row ∈ rows, ∀ t ∈ row.length, t.Inside e
  | .group cells => ∀ cell ∈ cells, cell.token.Inside e
  | _ => True

/-- Whether what has been found out about a line lies in the sources. -/
def Line.Kind.Placed (e : Extent) : Line.Kind → Prop
  | .instruction part => ∀ m ∈ part.matched, ∀ x ∈ m.expressions, x.1.Inside e
  | .command part => (∀ body ∈ part.body, e.Ordered body) ∧ part.state.Placed e
  | _ => True

/-- Whether the parameters of a macro come after its name. -/
def Line.CommandPart.Orders (part : CommandPart) : Prop :=
  part.directive = .macroBlock → ∀ name parameters, part.arguments = name :: parameters →
    ∀ p ∈ parameters, p.source = name.source ∧ name.offset ≤ p.offset

/-- Whether a directive and what it keeps lie in the sources. -/
structure Line.CommandPart.Placed (e : Extent) (part : CommandPart) : Prop where
  keyword : part.keyword.Inside e
  arguments : ∀ t ∈ part.arguments, t.Inside e
  body : ∀ body ∈ part.body, e.Ordered body
  state : part.state.Placed e
  orders : part.Orders

/-- Whether a line and what is known about it lie in the sources, but for the line as a whole. -/
structure Line.Placed (e : Extent) (l : Line) : Prop where
  label : ∀ t ∈ l.label, t.Inside e
  tokens : ∀ t ∈ l.kind.tokens, t.Inside e
  kind : l.kind.Placed e
  orders : ∀ part ∈ l.command?, part.Orders
  owner : ∀ part ∈ l.command?, part.directive.isGroup = true → ∀ t ∈ l.label, t.NamesGroup e ∧ t.PartOf l.origin
  below : ∀ part ∈ l.command?, ∀ body ∈ part.body, ∀ id ∈ body, l.origin.Above (e.origin id)

section

variable {e e' : Extent} {l l' : Line}

theorem DirectiveState.Placed.mono {state : DirectiveState} (h : state.Placed e) (hle : e.Le e') : state.Placed e' := by
  cases state with
  | branches state => exact fun ids hids id hid => Nat.lt_of_lt_of_le (h ids hids id hid) hle.labels
  | enumeration rows => exact fun row hrow t ht => (h row hrow t ht).mono hle
  | group cells => exact fun cell hcell => (h cell hcell).mono hle
  | _ => trivial

theorem Line.Kind.Placed.mono {kind : Line.Kind} (h : kind.Placed e) (hle : e.Le e') : kind.Placed e' := by
  cases kind with
  | instruction part => exact fun m hm x hx => (h m hm x hx).mono hle
  | command part => exact ⟨fun body hbody => (h.1 body hbody).mono hle, h.2.mono hle⟩
  | _ => trivial

theorem Line.CommandPart.Placed.mono {part : Line.CommandPart} (h : part.Placed e) (hle : e.Le e') :
    part.Placed e' where
  keyword := h.keyword.mono hle
  arguments t ht := (h.arguments t ht).mono hle
  body body hbody := (h.body body hbody).mono hle
  state := h.state.mono hle
  orders := h.orders

namespace Line.Placed

theorem mono (h : l.Placed e) (hle : e.Le e') : l.Placed e' where
  label t ht := (h.label t ht).mono hle
  tokens t ht := (h.tokens t ht).mono hle
  kind := h.kind.mono hle
  orders := h.orders
  owner part hpart hgroup t ht := (h.owner part hpart hgroup t ht).imp_left (·.mono hle)
  below part hpart body hbody id hid := by
    have hkind := h.kind
    rw [Assembly.kind_of_command hpart] at hkind
    rw [hle.origin id ((hkind.1 body hbody).lines id hid)]
    exact h.below part hpart body hbody id hid

/-- Only the place, the label and the kind of a line matter. -/
theorem congr (h : l.Placed e) (horigin : l'.origin = l.origin) (hlabel : l'.label = l.label)
    (hkind : l'.kind = l.kind) : l'.Placed e := by
  have hcommand : l'.command? = l.command? := by rw [Line.command?, Line.command?, hkind]
  refine ⟨hlabel ▸ h.label, hkind ▸ h.tokens, hkind ▸ h.kind, hcommand ▸ h.orders, ?_, ?_⟩
  · rw [hcommand, hlabel, horigin]
    exact h.owner
  · rw [hcommand, horigin]
    exact h.below

theorem of_other (hlabel : ∀ t ∈ l.label, t.Inside e) (htokens : ∀ t ∈ l.kind.tokens, t.Inside e)
    (hkind : l.kind.Placed e) (hnone : l.command? = none) : l.Placed e := by
  have hother : ∀ part, part ∉ l.command? := fun part => hnone ▸ Option.not_mem_none part
  exact ⟨hlabel, htokens, hkind, fun part hpart => absurd hpart (hother part),
    fun part hpart => absurd hpart (hother part), fun part hpart => absurd hpart (hother part)⟩

theorem vacant (e : Extent) : Line.vacant.Placed e := .of_other nofun nofun trivial rfl

theorem modifyCommand (h : l.Placed e) {f : Line.CommandPart → Line.CommandPart}
    (hsame : ∀ part, (f part).directive = part.directive ∧ (f part).keyword = part.keyword ∧
      (f part).arguments = part.arguments)
    (hkept : ∀ part ∈ l.command?, (Line.Kind.command (f part)).Placed e)
    (hbelow : ∀ part ∈ l.command?, ∀ body ∈ (f part).body, ∀ id ∈ body, l.origin.Above (e.origin id)) :
    (l.modifyCommand f).Placed e := by
  unfold Line.modifyCommand
  split
  · rename_i part hpart
    have hcommand : part ∈ l.command? := by
      unfold Line.command?
      rw [hpart]
      rfl
    obtain ⟨hdirective, hkeyword, harguments⟩ := hsame part
    refine ⟨h.label, ?_, hkept part hcommand, ?_, ?_, ?_⟩
    · have htokens := h.tokens
      rw [hpart] at htokens
      simpa only [Line.Kind.tokens, hkeyword, harguments] using htokens
    · rintro _ ⟨⟩
      have horders := h.orders part hcommand
      simpa only [Line.CommandPart.Orders, hdirective, harguments] using horders
    · rintro _ ⟨⟩
      rw [hdirective]
      exact h.owner part hcommand
    · rintro _ ⟨⟩
      exact hbelow part hcommand
  · exact h

theorem command (h : l.Placed e) {part : Line.CommandPart} (hpart : l.command? = some part) : part.Placed e := by
  have hkind := Assembly.kind_of_command hpart
  have htokens := h.tokens
  have hplaced := h.kind
  rw [hkind] at htokens hplaced
  obtain ⟨hkeyword, harguments⟩ := List.forall_mem_cons.mp htokens
  exact ⟨hkeyword, harguments, hplaced.1, hplaced.2, h.orders part hpart⟩

theorem copyTo (h : l.Placed e) (scope : ScopeId) : (l.copyTo scope).Placed e := by
  have htokens : (l.copyTo scope).kind.tokens = l.kind.tokens := by
    unfold Line.copyTo Line.Kind.fresh
    cases l.kind <;> rfl
  have hcommand : ∀ part ∈ (l.copyTo scope).command?, part.body = none ∧ ∃ part' ∈ l.command?,
      part.directive = part'.directive ∧ part.arguments = part'.arguments := by
    intro part hpart
    unfold Line.copyTo Line.Kind.fresh Line.command? at hpart
    unfold Line.command?
    cases hkind : l.kind with
    | command part' =>
      rw [hkind] at hpart
      cases hpart
      exact ⟨rfl, part', rfl, rfl, rfl⟩
    | _ =>
      rw [hkind] at hpart
      cases hpart
  refine ⟨h.label, htokens ▸ h.tokens, ?_, fun part hpart => ?_, fun part hpart hgroup => ?_, fun part hpart => ?_⟩
  · unfold Line.copyTo Line.Kind.fresh
    cases l.kind with
    | instruction => exact nofun
    | command => exact ⟨nofun, trivial⟩
    | _ => trivial
  · obtain ⟨-, part', hpart', hdirective, harguments⟩ := hcommand part hpart
    have horders := h.orders part' hpart'
    simpa only [Line.CommandPart.Orders, hdirective, harguments] using horders
  · obtain ⟨-, part', hpart', hdirective, -⟩ := hcommand part hpart
    exact h.owner part' hpart' (hdirective ▸ hgroup)
  · rw [(hcommand part hpart).1]
    nofun

end Line.Placed

theorem Line.Kind.IsRead.placed {kind : Line.Kind} (h : kind.IsRead) (e : Extent) : kind.Placed e := by
  cases h with
  | command => exact ⟨nofun, trivial⟩
  | instruction => exact nofun
  | _ => trivial

theorem placed_of_mem_classifySource {source : SourceId} {file : SourceFile} {c : ClassifiedLine}
    (hfile : e.sources.get? source = some file) (h : c ∈ classifySource e.set source file) (scope : ScopeId) :
    (c.toLine scope).Placed e ∧ c.origin.IsLine e := by
  have hinside := inside_of_mem_classifySource hfile h
  have hlabel : ∀ t ∈ c.label, t ∈ c.tokens := fun t ht => by
    rw [ClassifiedLine.tokens, List.cons_append]
    exact List.mem_cons_of_mem _ (List.mem_append_left _ (Option.mem_toList.mpr ht))
  have htokens : ∀ t ∈ c.kind.tokens, t ∈ c.tokens := fun t ht => List.mem_append_right _ ht
  have hkind : ∀ part ∈ (c.toLine scope).command?, c.kind = .command part := fun part hpart =>
    Assembly.kind_of_command (l := c.toLine scope) hpart
  have hsource : c.origin.source = source := (hinside _ List.mem_cons_self).2
  refine ⟨⟨fun t ht => (hinside t (hlabel t ht)).1, fun t ht => (hinside t (htokens t ht)).1, ?_, fun part hpart => ?_,
    fun part hpart hgroup t ht => ?_, fun part hpart => ?_⟩, file, c, hsource ▸ hfile, hsource.symm ▸ h, rfl⟩
  · exact (isRead_of_mem_classifySource h).placed e
  · intro hdirective name parameters harguments p hp
    have hmem : ∀ t ∈ name :: parameters, t ∈ c.tokens := fun t ht => htokens t (by
      rw [hkind part hpart, Line.Kind.tokens, harguments]
      exact List.mem_cons_of_mem _ ht)
    refine ⟨?_, offset_le_of_mem_classifySource h (hkind part hpart) hdirective harguments p hp⟩
    rw [(hinside p (hmem p (List.mem_cons_of_mem _ hp))).2, (hinside name (hmem name List.mem_cons_self)).2]
  · have hsource : t.source = source := (hinside t (hlabel t ht)).2
    refine ⟨⟨file, c, part, hsource ▸ hfile, hsource.symm ▸ h, ht, hkind part hpart, hgroup⟩, ?_⟩
    have hcontent : t ∈ (classifyContent e.set c.origin).1 := by
      rw [classifyContent_of_mem h]
      exact ht
    exact partOf_classifyContent (List.mem_append_left _ (Option.mem_toList.mpr hcontent))
  · have hread := isRead_of_mem_classifySource h
    rw [hkind part hpart] at hread
    cases hread
    nofun

end

/-! ## Symbols -/

/-- Whether a macro, its parameters and its lines can be found. A parameter is named where its macro is. -/
structure MacroDefinition.Placed (e : Extent) (m : MacroDefinition) : Prop where
  token : m.token.Inside e
  parameters : ∀ p ∈ m.parameters, ({ m.token with text := p } : Token).Inside e
  body : e.Ordered m.body

/-- Whether labels and macros lie in the sources, and names stand for labels. -/
structure SymbolTable.Placed (e : Extent) (t : SymbolTable) : Prop where
  free : t.freeLabels = []
  size : t.labels.size = e.labels
  labels : ∀ id < e.labels, (t.label id).token.span.Sited e
  names : ∀ scope name id, t.lookupIn? scope name = some id → id < e.labels
  macros : ∀ m ∈ t.macros, m.Placed e

theorem MacroDefinition.Placed.mono {e e' : Extent} {m : MacroDefinition} (h : m.Placed e) (hle : e.Le e') :
    m.Placed e' :=
  ⟨h.token.mono hle, fun p hp => (h.parameters p hp).mono hle, h.body.mono hle⟩

namespace SymbolTable.Placed

variable {e e' : Extent} {t t' : SymbolTable}
variable {id : LabelId}

theorem mono (h : t.Placed e) (hle : e.Le e') (hlabels : e'.labels = e.labels) : t.Placed e' where
  free := h.free
  size := h.size.trans hlabels.symm
  labels id hid := (h.labels id (hlabels ▸ hid)).mono hle
  names scope name id hid := hlabels ▸ h.names scope name id hid
  macros m hm := (h.macros m hm).mono hle

theorem congr (h : t.Placed e) (hkeeps : t'.labels.size = t.labels.size ∧ t'.freeLabels = t.freeLabels)
    (htokens : ∀ id, (t'.label id).token = (t.label id).token)
    (hnames : ∀ scope name id, t'.lookupIn? scope name = some id → id < e.labels) (hmacros : t'.macros = t.macros) :
    t'.Placed e where
  free := hkeeps.2.trans h.free
  size := hkeeps.1.trans h.size
  labels id hid := by
    rw [htokens]
    exact h.labels id hid
  names := hnames
  macros := hmacros ▸ h.macros

theorem modifyLabel (h : t.Placed e) (id : LabelId) {f : Label → Label} (hf : ∀ l, (f l).token = l.token) :
    (t.modifyLabel id f).Placed e := by
  refine h.congr ⟨Array.size_modify, rfl⟩ (fun j => ?_) h.names rfl
  rw [label_modifyLabel]
  split
  · exact hf _
  · rfl

theorem bind (h : t.Placed e) (hid : id < e.labels) : (t.bind id).Placed e := by
  have hkeeps := keeps_bind t id
  refine h.congr ⟨hkeeps.labels, hkeeps.freeLabels⟩ (fun j => ?_) (fun scope name j hj => ?_) ?_
  · rw [label_bind]
    split <;> rfl
  · rw [lookupIn_bind] at hj
    split at hj
    · exact Option.some.inj hj ▸ hid
    · exact h.names scope name j hj
  · unfold SymbolTable.bind
    simp only
    split
    · rfl
    · split <;> rfl

theorem unbind (h : t.Placed e) (id : LabelId) : (t.unbind id).Placed e := by
  have hkeeps := keeps_unbind t id
  refine h.congr ⟨hkeeps.labels, hkeeps.freeLabels⟩ (fun j => ?_) (fun scope name j hj => ?_) ?_
  · rw [label_unbind]
    split <;> rfl
  · rw [lookupIn_unbind] at hj
    split at hj
    · cases hj
    · exact h.names scope name j hj
  · unfold SymbolTable.unbind
    simp only
    split
    · split
      · rfl
      · split <;> rfl
    · rfl

theorem unbindAll (h : t.Placed e) (ids : List LabelId) : (ids.foldl SymbolTable.unbind t).Placed e := by
  induction ids generalizing t with
  | nil => exact h
  | cons id ids ih => exact ih (h.unbind id)

theorem rebind (h : t.Placed e) (hid : id < e.labels) : match t.rebind id with
    | .ok t' => t'.Placed e
    | .error err => ∀ token ∈ err.previous?, token.span.Sited e := by
  unfold SymbolTable.rebind
  simp only
  split
  · rename_i t' hshown
    split at hshown
    · cases hshown
      exact h
    split at hshown
    · cases hshown
      exact h.bind hid
    · cases hshown
      exact h.bind hid
    · cases hshown
  · rename_i err hfailed
    split at hfailed
    · cases hfailed
    split at hfailed
    · cases hfailed
    · cases hfailed
    · rename_i other hother _
      cases hfailed
      rintro _ ⟨⟩
      exact h.labels other (h.names _ _ other hother)

theorem addScope (h : t.Placed e) (kind : ScopeKind) (parent : ScopeId) (source : SourceId) :
    (t.addScope kind parent source).2.Placed e := by
  unfold SymbolTable.addScope
  split
  · rename_i new free _
    refine h.congr ⟨rfl, rfl⟩ (fun _ => rfl) (fun scope name id hid => h.names scope name id ?_) rfl
    have hscope := scope_modifyScope t new scope fun s => { s with kind, parent := some parent, source }
    have hnames : ((t.modifyScope new fun s => { s with kind, parent := some parent, source }).scope scope).names =
        (t.scope scope).names := by
      rw [hscope]
      split <;> rfl
    rw [← hid]
    exact congrArg (·[name]?) hnames.symm
  · refine h.congr ⟨rfl, rfl⟩ (fun _ => rfl) (fun scope name id hid => h.names scope name id ?_) rfl
    unfold lookupIn? SymbolTable.scope at hid ⊢
    rw [Array.getElem?_push] at hid
    split at hid
    · simp at hid
    · exact hid

theorem setValue (h : t.Placed e) (id : LabelId) (value : Option Value) : (t.setValue id value).2.Placed e := by
  unfold SymbolTable.setValue
  split
  · exact h
  · exact h.modifyLabel id fun _ => rfl

theorem addReference (h : t.Placed e) (source : SourceId) (name : String) : (t.addReference source name).Placed e := by
  unfold SymbolTable.addReference
  split
  · exact h.congr ⟨rfl, rfl⟩ (fun _ => rfl) h.names rfl
  · exact h

theorem addGroup (h : t.Placed e) (g : DataGroup) : (t.addGroup g).Placed e := by
  unfold SymbolTable.addGroup
  split
  · exact h.congr ⟨rfl, rfl⟩ (fun _ => rfl) h.names rfl
  · exact h.congr ⟨rfl, rfl⟩ (fun _ => rfl) h.names rfl

theorem mem_macros {name : String} {m : MacroDefinition} (h : t.macro? name = some m) : m ∈ t.macros :=
  List.mem_of_find?_eq_some h

theorem defineMacro (h : t.Placed e) {m : MacroDefinition} (hm : m.Placed e) : match t.defineMacro m with
    | .ok t' => t'.Placed e
    | .error err => ∀ token ∈ err.previous?, token.span.Sited e := by
  unfold SymbolTable.defineMacro
  cases hother : t.macro? m.name with
  | none =>
    refine ⟨h.free, h.size, h.labels, h.names, fun m' hm' => ?_⟩
    rcases List.mem_append.mp hm' with hm' | hm'
    · exact h.macros m' hm'
    · exact List.mem_singleton.mp hm' ▸ hm
  | some other =>
    rintro _ ⟨⟩
    exact (h.macros other (mem_macros hother)).token.sited

theorem createLabel (h : t.Placed e) {token : Token} (htoken : token.span.Sited e) {scope : ScopeId} {kind : LabelKind}
    {allow : Bool} (hmade : t.createLabel token scope kind allow = .ok (id, t')) :
    id = e.labels ∧ t'.Placed { e with labels := e.labels + 1 } := by
  have hle : e.Le { e with labels := e.labels + 1 } :=
    ⟨rfl, fun _ _ hf => hf, Nat.le_refl _, fun _ _ => rfl, Nat.le_succ _⟩
  have hpushed : ∀ l : Label, l.token = token →
      SymbolTable.Placed { e with labels := e.labels + 1 } { t with labels := t.labels.push l } := by
    intro l hl
    refine ⟨h.free, ?_, fun id hid => ?_, fun scope name id hid => Nat.lt_succ_of_lt (h.names scope name id hid),
      fun m hm => (h.macros m hm).mono hle⟩
    · rw [Array.size_push, h.size]
    rcases Nat.lt_succ_iff_lt_or_eq.mp hid with hlt | rfl
    · rw [label_push_of_lt (h.size ▸ hlt)]
      exact (h.labels id hlt).mono hle
    · have hself := label_push_self (t := t) (l := l)
      rw [h.size] at hself
      rw [hself, hl]
      exact htoken.mono hle
  unfold SymbolTable.createLabel at hmade
  split at hmade
  · cases hmade
  split at hmade
  · cases hmade
  simp only [addLabel_of_free h.free, h.size] at hmade
  split at hmade
  · cases hmade
    exact ⟨rfl, (hpushed _ rfl).bind (Nat.lt_succ_self _)⟩
  · cases hmade
    exact ⟨rfl, (hpushed _ rfl).bind (Nat.lt_succ_self _)⟩
  · cases hmade

theorem previous_of_createLabel (h : t.Placed e) {token : Token} {scope : ScopeId} {kind : LabelKind} {allow : Bool}
    {err : SymbolError} (hfailed : t.createLabel token scope kind allow = .error err) :
    ∀ previous ∈ err.previous?, previous.span.Sited e := by
  unfold SymbolTable.createLabel at hfailed
  split at hfailed
  · cases hfailed
    nofun
  split at hfailed
  · cases hfailed
    nofun
  simp only at hfailed
  split at hfailed
  · cases hfailed
  · cases hfailed
  · rename_i other _ _ _ hother
    cases hfailed
    rintro _ ⟨⟩
    exact h.labels other (h.names _ _ other hother)

end SymbolTable.Placed

end CrossAssembler
