import CrossAssembler.Proofs.Assembly.Tables

/-!
# Declaring is a run

* `loadSource_spec`, `instantiate_spec` — new lines get the next numbers, in order.

Principal result: `Runs.declare` — declaring lines changes only these lines and new ones.
-/

namespace CrossAssembler

variable {l : Line}

/-! ## New lines -/

/-- Whether nothing has been found out about a line. -/
def Line.Kind.IsNew : Line.Kind → Prop
  | .command part => part.expressions = [] ∧ part.state = .none ∧ part.body = none
  | .call part => part.expressions = [] ∧ part.expansion = none
  | .variable part => part.label = none
  | _ => True

/-- Whether a line has just been read or copied. -/
structure Line.IsNew (l : Line) : Prop where
  labelId : l.labelId = none
  state : l.state = .unresolved
  kind : l.kind.IsNew

theorem Line.isNew_copyTo (l : Line) (scope : ScopeId) : (l.copyTo scope).IsNew := by
  refine ⟨rfl, rfl, ?_⟩
  unfold copyTo Kind.fresh
  cases l.kind with
  | command => exact ⟨rfl, rfl, rfl⟩
  | call => exact ⟨rfl, rfl⟩
  | _ => trivial

theorem isNew_keywordLine {set : InstructionSet} {content : Token} {p : Piece} {kind : Line.Kind}
    (h : keywordLine? set content p = some kind) : kind.IsNew := by
  unfold keywordLine? at h
  simp only at h
  split at h
  · cases h
    exact ⟨rfl, rfl, rfl⟩
  · split at h
    · cases h
      trivial
    · cases h

theorem isNew_classifyPieces (set : InstructionSet) (content : Token) :
    ∀ ps : List Piece, (classifyPieces set content ps).2.IsNew
  | [] => trivial
  | p :: ps => by
    unfold classifyPieces
    split
    · split
      · rename_i h
        exact isNew_keywordLine h
      · exact isNew_classifyPieces set content ps
    · split
      · rfl
      · trivial
    · exact isNew_classifyPieces set content ps

theorem isNew_classifyContent (set : InstructionSet) (content : Token) :
    (classifyContent set content).2.IsNew := isNew_classifyPieces set content _

theorem isNew_classifyLines (set : InstructionSet) (source : SourceId) :
    ∀ (ls : List SourceLine) (pending : PendingComment) (l : ClassifiedLine),
      l ∈ classifyLines set source pending ls → l.kind.IsNew
  | [], _, _, h => by cases h
  | line :: ls, pending, l, h => by
    unfold classifyLines at h
    simp only at h
    split at h
    · exact isNew_classifyLines set source ls _ l h
    rcases List.mem_cons.mp h with h | h
    · have hkind := congrArg ClassifiedLine.kind h
      simp only at hkind
      rw [hkind]
      exact isNew_classifyContent set _
    · exact isNew_classifyLines set source ls _ l h

theorem isNew_classifySource {set : InstructionSet} {source : SourceId} {file : SourceFile} {scope : ScopeId}
    (h : l ∈ (classifySource set source file).map fun l => l.toLine scope) : l.IsNew ∧ l.scope = scope := by
  obtain ⟨c, hc, rfl⟩ := List.mem_map.mp h
  exact ⟨⟨rfl, rfl, isNew_classifyLines set source _ _ c hc⟩, rfl⟩

theorem Line.CommandPart.complete_of_new {part : CommandPart} (hexpressions : part.expressions = [])
    (hstate : part.state = .none) : part.Complete := by
  unfold Complete
  split
  · rw [hexpressions]
    exact List.not_mem_nil
  · rw [hexpressions]
    exact List.not_mem_nil
  · rw [hexpressions]
    exact List.not_mem_nil
  · intro data hdata
    rw [hstate] at hdata
    cases hdata
  · trivial

theorem Line.IsNew.complete (h : l.IsNew) : l.Complete := by
  have hkind := h.kind
  unfold Complete
  split
  · rename_i part hk
    rw [hk] at hkind
    rw [hkind.1]
    exact List.not_mem_nil
  · rename_i part hk
    rw [hk] at hkind
    exact CommandPart.complete_of_new hkind.1 hkind.2.1
  · trivial

theorem Line.IsNew.consistent (h : l.IsNew) : l.Consistent := by
  intro part hk
  have hkind := h.kind
  rw [hk] at hkind
  rw [hkind.2.1]
  trivial

theorem Line.IsNew.read (h : l.IsNew) : l.Read := by
  intro part hk
  have hkind := h.kind
  rw [hk] at hkind
  refine ⟨fun _ _ hstate => ?_, fun _ _ hstate => ?_⟩
  · rw [hkind.2.1] at hstate
    cases hstate
  · rw [hkind.2.1] at hstate
    cases hstate

theorem Line.IsNew.block (h : l.IsNew) : l.table? = none ∧ l.rows = [] := by
  have hkind := h.kind
  cases hk : l.kind with
  | command part =>
    rw [hk] at hkind
    simp only [table?, rows, hk, hkind.2.1, hkind.2.2, Option.getD_none, and_self]
  | _ => simp only [table?, rows, hk, and_self]

namespace Assembly

variable {s s' : Assembly} {may : Permit}
variable {l l' : Line} {ids : List LineId} {id : LineId} {scope : ScopeId} {items : List Item}

theorem linesBelow_new (h : l.IsNew) : linesBelow l = [] := by
  have hkind := h.kind
  cases hk : l.kind with
  | call part =>
    rw [hk] at hkind
    rw [linesBelow, hk]
    simp only [hkind.2]
    rfl
  | command part =>
    rw [hk] at hkind
    rw [linesBelow_command hk, hkind.2.1]
    rfl
  | _ =>
    rw [linesBelow, hk]

theorem owns_new (h : l.IsNew) (id : LineId) : s.Owns id l := by
  have hnew := h.kind
  refine ⟨by rw [h.labelId]; exact nofun, ?_⟩
  split
  · rename_i hkind
    rw [hkind] at hnew
    rw [show _ = none from hnew]
    exact nofun
  · rename_i hkind
    rw [hkind] at hnew
    rw [hnew.2]
    exact nofun
  · rename_i hkind
    rw [hkind] at hnew
    rw [hnew.2.1]
    exact claims_of_state nofun nofun
  · trivial

theorem Fresh.of_new (h : l.IsNew) (hscope : l.scope < s.symbols.scopes.size) (hroom : s.Room l.scope) : s.Fresh l where
  scope := hscope
  room := hroom
  owned := owns_new h
  state := h.state
  complete := h.complete
  consistent := h.consistent
  read := h.read
  table := h.block.1
  rows := h.block.2
  below := linesBelow_new h

theorem Sound.room (hs : s.Sound) : s.Room s.symbols.scopes.size := fun _ e he => hs.evaluated e he

theorem change_addScope (hs : s.Sound) (kind : ScopeKind) {parent : ScopeId} (source : SourceId)
    (hparent : parent < s.symbols.scopes.size) :
    Change may s { s with symbols := (s.symbols.addScope kind parent source).2 } ∧
      { s with symbols := (s.symbols.addScope kind parent source).2 }.Room (s.symbols.addScope kind parent source).1 ∧
      (s.symbols.addScope kind parent source).1 < (s.symbols.addScope kind parent source).2.scopes.size := by
  refine ⟨.addScope kind parent source hparent, ?_, ?_⟩
  · rw [SymbolTable.addScope_of_free hs.freeScopes]
    exact hs.room
  · rw [SymbolTable.addScope_of_free hs.freeScopes]
    exact Array.size_push _ ▸ Nat.lt_succ_self _

/-- What is known once lines have been added: they have the next numbers, in order. -/
structure Added (may : Permit) (s s' : Assembly) (ids : List LineId) : Prop where
  changes : Changes may s s'
  numbers : ids = List.range' s.lines.size ids.length
  size : s'.lines.size = s.lines.size + ids.length

theorem Added.nodup (h : Added may s s' ids) : ids.Nodup := by
  rw [h.numbers]
  exact List.nodup_range'

theorem Added.mem (h : Added may s s' ids) (hid : id ∈ ids) : s.lines.size ≤ id ∧ id < s'.lines.size := by
  rw [h.numbers, List.mem_range'_1] at hid
  rw [h.size]
  exact hid

theorem Added.nil (s : Assembly) : Added may s s [] := ⟨.refl, rfl, rfl⟩

theorem Added.cons (hs : s.Sound) (hl : s.Fresh l) (h : Added may { s with lines := (s.lines.push l).2 } s' ids) :
    Added may s s' ((s.lines.push l).1 :: ids) := by
  have hsize := size_push (s := s) (l := l) hs.free
  refine ⟨.head (.push l hl) h.changes, ?_, ?_⟩
  · have hids := h.numbers
    rw [hsize] at hids
    rw [List.length_cons, List.range'_succ, ← hids, push_of_free hs.free]
  · rw [h.size, hsize, List.length_cons]
    omega

theorem added_pushAll {scope : ScopeId} :
    ∀ (ls : List Line) {s : Assembly}, s.Sound → (∀ l ∈ ls, l.IsNew ∧ l.scope = scope) →
      scope < s.symbols.scopes.size → s.Room scope →
      Added may s { s with lines := (s.lines.pushAll ls).2 } (s.lines.pushAll ls).1
  | [], s, _, _, _, _ => .nil s
  | l :: ls, s, hs, hls, hscope, hroom => by
    obtain ⟨hnew, rfl⟩ := hls l List.mem_cons_self
    have hfresh : s.Fresh l := .of_new hnew hscope hroom
    have hroom' := hroom.mono (plain_of_push (l := l) hs.free) rfl
    exact .cons hs hfresh (added_pushAll ls (hs.push hfresh)
      (fun k hk => hls k (List.mem_cons_of_mem l hk)) hscope hroom')

theorem added_instantiate :
    ∀ (body : List LineId) {s : Assembly}, s.Sound → scope < s.symbols.scopes.size → s.Room scope →
      Added may s { s with lines := (s.lines.instantiate body scope).2 } (s.lines.instantiate body scope).1
  | [], s, _, _, _ => .nil s
  | id :: ids, s, hs, hscope, hroom => by
    have hfresh : s.Fresh ((s.lines.get id).copyTo scope) :=
      .of_new (Line.isNew_copyTo _ _) hscope hroom
    have hroom' := hroom.mono (plain_of_push (l := (s.lines.get id).copyTo scope) hs.free) rfl
    exact .cons hs hfresh (added_instantiate ids (hs.push hfresh) hscope hroom')

theorem Added.tail {s'' : Assembly} (h : Added may s s' ids)
    (hchange : Change may s' s'') (hlines : s''.lines = s'.lines) : Added may s s'' ids :=
  ⟨h.changes.tail hchange, h.numbers, by rw [hlines]; exact h.size⟩

/-- Items that consist of new lines, each once. -/
structure NewItems (s s' : Assembly) (items : List Item) : Prop where
  distinct : (Item.allLines items).Nodup
  proper : ∀ item ∈ items, item.Proper fun id => s.lines.size ≤ id ∧ id < s'.lines.size

theorem NewItems.nodup (h : NewItems s s' items) : (items.map Item.id).Nodup :=
  (Item.ids_sublist items).nodup h.distinct

theorem Added.arrange (hs : s.Sound) (h : Added (.undeclared s.lines.size) s s' ids) :
    Changes (.undeclared s.lines.size) s (s'.arrange ids).2 ∧ NewItems s (s'.arrange ids).2 (s'.arrange ids).1 := by
  have hs' := h.changes.sound hs
  have hrun : Changes (.undeclared s.lines.size) s' (s'.arrange ids).2 :=
    Runs.arrange (fun id hid => ⟨(h.mem hid).1, not_false, (h.mem hid).2, h.changes.table_eq_none hs not_false
      (line_of_size_le (h.mem hid).1 ▸ rfl)⟩) hs' (h.changes.region hs (region_undeclared s))
  have hmade := arrange_proper s' h.nodup
  refine ⟨h.changes.trans hrun, hmade.1.nodup h.nodup, fun item hitem => ?_⟩
  exact (hmade.2 item hitem).mono fun id hid =>
    ⟨(h.mem hid).1, Nat.lt_of_lt_of_le (h.mem hid).2 hrun.size_le⟩

theorem added_loadSource (hs : s.Sound) (name text : String) :
    Added may s (s.loadSource name text).2 (s.loadSource name text).1.2.2 := by
  unfold loadSource
  simp only
  generalize (s.sources.add name text).1 = source
  obtain ⟨hscope, hroom, hlt⟩ := (change_addScope hs .file source hs.rooted : Change may s _ ∧ _)
  generalize (s.symbols.addScope .file globalScope source).1 = scope at hroom hlt ⊢
  generalize (s.symbols.addScope .file globalScope source).2 = symbols at hscope hroom hlt ⊢
  have hadded : Added may { s with symbols } _ _ := added_pushAll
    ((classifySource s.instructions source ⟨name, text⟩).map fun l => l.toLine scope)
    (hscope.sound hs) (fun _ hl => isNew_classifySource hl) hlt hroom
  refine ⟨(Relation.ReflTransGen.head hscope hadded.changes).tail ?_, hadded.numbers, hadded.size⟩
  exact .around rfl rfl rfl rfl rfl rfl rfl rfl rfl rfl fun h => h

/-! ## The directives that declare -/

/-- What is found out about a line that is no directive. -/
structure OtherKind (own : LineId → Prop) (s : Assembly) (id : LineId) (l l' : Line) : Prop where
  same : l' = { l with label := l'.label, kind := l'.kind }
  plain : l'.isPlain = l.isPlain
  before : l.directive? = none
  after : l'.directive? = none
  complete : l.Complete → l'.Complete ∨ s.Failed
  owned : s.Owns id l → s.Owns id l'
  below : ∀ items ∈ linesBelow l', items ∈ linesBelow l ∨
    ∀ item ∈ items, item.Proper fun id => own id ∧ id < s.lines.size
  grows : linesBelow l' = linesBelow l ∨ s.Grows id (linesBelow l')
  inner : ∀ items ∈ l.inner, items ∈ l'.inner

theorem OtherKind.ne_command {own : LineId → Prop} (h : OtherKind own s id l l')
    (part : Line.CommandPart) : l'.kind ≠ .command part := by
  intro hkind
  have hafter := h.after
  rw [Line.directive?, Line.command?, hkind] at hafter
  cases hafter

theorem OtherKind.refines {own : LineId → Prop} (h : OtherKind own s id l l') : Refines own s id l l' where
  place := by rw [Line.place, Line.place, h.after, h.before, h.same]; rfl
  state := by rw [h.same]
  labelId := by rw [h.same]
  org := by rw [h.same]
  base := by rw [h.same]
  bytes := by rw [h.same]
  plain := h.plain
  directive := h.after.trans h.before.symm
  complete := h.complete
  consistent _ part hkind := absurd hkind (h.ne_command part)
  data := by
    rintro _ ⟨part, hkind, -⟩
    have hbefore := h.before
    rw [Line.directive?, Line.command?, hkind] at hbefore
    cases hbefore
  owned := h.owned
  rows row hrow := by
    rw [Line.rows] at hrow
    split at hrow
    · rename_i part hkind
      exact absurd hkind (h.ne_command part)
    · cases hrow
  below := h.below

theorem OtherKind.keeps {own : LineId → Prop} (h : OtherKind own s id l l') : Keeps s l l' := by
  refine ⟨fun _ => .inl fun part hkind => absurd hkind (h.ne_command part), h.inner, fun table htable => ?_⟩
  rw [Line.table?] at htable
  split at htable
  · rename_i part hkind
    exact absurd hkind (h.ne_command part)
  · cases htable

theorem change_modifyOther {f : Line → Line} (hown : may.change id)
    (h : f (s.line id) = s.line id ∨ OtherKind may.attach s id (s.line id) (f (s.line id))) :
    Change may s (s.modifyLine id f) := by
  rcases h with h | h
  · refine .modify id f hown ?_ (.inl ?_) (.inr ?_)
    · rw [h]
      exact .refl _
    · rw [h]
    · rw [h]
      exact .refl _
  · exact .modify id f hown h.refines h.grows (.inr h.keeps)

namespace Runs

variable {id : LineId}

theorem modifyVariable {f : Line.VariablePart → Line.VariablePart} (hown : may.change id)
    (hlabel : ∀ part, (f part).label = part.label ∨ ∀ label ∈ (f part).label, s.Free label) :
    Runs may s (s.modifyLine id fun l =>
      match l.kind with
      | .variable part => { l with kind := .variable (f part) }
      | _ => l) := by
  refine single (change_modifyOther hown ?_)
  split
  · rename_i part hkind
    refine .inr ⟨rfl, ?_, ?_, rfl, fun _ => .inl trivial, fun h => ⟨h.1, ?_⟩, fun _ h => absurd h List.not_mem_nil,
      .inr (grows_nil s id), ?_⟩
    · rw [Line.isPlain, Line.isPlain, hkind]
    · rw [Line.directive?, Line.command?, hkind]
      rfl
    · change ∀ label ∈ (f part).label, s.Free label
      rcases hlabel part with heq | hfree
      · have howned := h.2
        rw [hkind] at howned
        rw [heq]
        exact howned
      · exact hfree
    · rw [Line.inner, hkind]
      exact fun _ h => absurd h List.not_mem_nil
  · exact .inl rfl

theorem declareVariable {part : Line.VariablePart} (hown : may.change id)
    (hid : id < s.lines.size) (hkind : (s.line id).kind = .variable part) :
    Runs may s (s.declareVariable id part) := by
  refine of fun hs hr => ?_
  have hroom := hr.room id hown hid
  have hplain : ¬ s.Plain := not_plain (by rw [Line.isPlain, hkind])
  unfold Assembly.declareVariable
  simp only
  refine trans ?_ (modifyVariable hown fun _ => .inr ?_)
  · split
    · exact refl s
    · split
      · rename_i label t hdef
        exact (ofDefine hdef hroom fun _ => hplain).trans (setDoc t label _)
      · rename_i t hdef
        exact ofDefine hdef hroom fun _ => hplain
  · split
    · rename_i label hfound
      rintro _ ⟨⟩
      exact hs.free_of_variable (eq_of_beq (Option.filter_eq_some_iff.mp hfound).2)
    · split
      · rename_i label t hdef
        rintro _ ⟨⟩
        exact (free_defineLabel hs hdef (.inl nofun)).setDoc label _
      · exact nofun

theorem declareConstant {part : Line.CommandPart} (hopen : may.declare id)
    (hid : id < s.lines.size) (hdefine : (s.line id).directive? = some .define) :
    Runs may s (s.declareConstant id part) := by
  refine of fun hs hr => ?_
  have hroom := hr.room id (may.sub id hopen) hid
  unfold Assembly.declareConstant
  split
  · exact refl s
  simp only
  split
  · rename_i label t hdef
    have hother : (s.line id).hasRows ≠ true := by
      rw [Line.hasRows, hdefine]
      decide
    have hfree := (free_defineLabel hs hdef (.inr hother)).setDoc label (s.line id).comment
    refine ((ofDefine hdef hroom (by simp)).trans (setDoc t label _)).seq fun hs hrun =>
      setDeclared hopen ⟨rfl, by simp, by simp, by simp⟩ ?_ ⟨?_, by simp⟩
    · rw [Line.isData, (hrun.linesKept hs).directive id hid, hdefine]
      rfl
    · rintro _ ⟨⟩
      exact hfree
  · rename_i t hdef
    exact ofDefine hdef hroom (by simp)

theorem declareEnumRow {row : LineId} {scope : ScopeId} (hroom : s.Room scope) :
    Runs may s (s.declareEnumRow id scope row).2 := by
  refine (finish s row).seq fun hs hrun => ?_
  have hroom' := hrun.room hs hroom
  unfold Assembly.declareEnumRow
  simp only
  split
  · split
    · rename_i label t hdef
      exact (ofDefine hdef hroom' nofun).trans (setDoc t label _)
    · rename_i t hdef
      exact ofDefine hdef hroom' nofun
  · split
    · rename_i label t hdef
      exact (ofDefine hdef hroom' nofun).trans (setDoc t label _)
    · rename_i t hdef
      exact ofDefine hdef hroom' nofun
  · exact fail _ id _ _

theorem declareEnumRows {scope : ScopeId} : ∀ (rows : List LineId) {s : Assembly}, s.Room scope →
      Runs may s (s.declareEnumRows id scope rows).2
  | [], s, _ => refl s
  | row :: rows, s, hroom => by
    unfold Assembly.declareEnumRows
    exact (declareEnumRow hroom).seq fun hs hrun => declareEnumRows rows (hrun.room hs hroom)

end Runs

theorem label_declareEnumRow {row : LineId} (hs : s.Sound)
    (henum : (s.line id).directive? = some .enumeration) {e : EnumRow}
    (h : (s.declareEnumRow id scope row).1 = some e) :
    e.label = s.symbols.labels.size ∧ e.label < (s.declareEnumRow id scope row).2.symbols.labels.size ∧
      (e.label, id) ∈ (s.declareEnumRow id scope row).2.rowLabels := by
  have hmark : ((s.mark row .finished).line id).hasRows = true := by
    rw [Line.directive?, Line.command?] at henum
    rw [Line.hasRows, Line.directive?, Line.command?, sameKinds_mark s row .finished id, henum]
    rfl
  have hmade : ∀ {token : Token} {label : LabelId} {t : Assembly},
      (s.mark row .finished).defineLabel id token scope .defined false = (some label, t) →
        label = s.symbols.labels.size ∧ label < t.symbols.labels.size ∧ (label, id) ∈ t.rowLabels := by
    intro token label t hdef
    have hfree : (s.mark row .finished).symbols.freeLabels = [] := hs.freeLabels
    obtain ⟨hlabel, hlt, -, -, hrows⟩ := defineLabel_eq_some hfree hdef
    rw [if_pos ⟨rfl, hmark⟩] at hrows
    exact ⟨hlabel, hlt, hrows ▸ List.mem_cons_self⟩
  unfold declareEnumRow at h ⊢
  simp only at h ⊢
  split at h
  · split at h
    · rename_i label t hdef
      cases h
      obtain ⟨hlabel, hlt, hrow⟩ := hmade hdef
      exact ⟨hlabel, Nat.lt_of_lt_of_eq hlt Array.size_modify.symm, hrow⟩
    · cases h
  · split at h
    · rename_i label t hdef
      cases h
      obtain ⟨hlabel, hlt, hrow⟩ := hmade hdef
      exact ⟨hlabel, Nat.lt_of_lt_of_eq hlt Array.size_modify.symm, hrow⟩
    · cases h
  · cases h

theorem labels_declareEnumRows (rows : List LineId) (hs : s.Sound)
    (hid : id < s.lines.size) (henum : (s.line id).directive? = some .enumeration) (hroom : s.Room scope) :
    ((s.declareEnumRows id scope rows).1.map fun r => r.label).Nodup ∧ ∀ r ∈ (s.declareEnumRows id scope rows).1,
        s.symbols.labels.size ≤ r.label ∧ (r.label, id) ∈ (s.declareEnumRows id scope rows).2.rowLabels := by
  induction rows generalizing s with
  | nil => exact ⟨List.nodup_nil, nofun⟩
  | cons row rows ih =>
    have hrow : Changes .still s (s.declareEnumRow id scope row).2 :=
      Runs.declareEnumRow hroom hs ⟨fun _ h => h.elim, fun _ h => h.elim⟩
    have hmade := @label_declareEnumRow s id scope row hs henum
    unfold declareEnumRows
    simp only
    generalize s.declareEnumRow id scope row = first at hrow hmade ⊢
    have hsound := hrow.sound hs
    have hroom' := hrow.room hs hroom
    have hlater := hrow.later hs
    have henum' := ((hrow.linesKept hs).directive id hid).trans henum
    obtain ⟨hnodup, hrows⟩ := ih hsound (Nat.lt_of_lt_of_le hid hrow.size_le) henum' hroom'
    have hrest : Changes .still first.2 (first.2.declareEnumRows id scope rows).2 :=
      Runs.declareEnumRows rows hroom' hsound ⟨fun _ h => h.elim, fun _ h => h.elim⟩
    have hothers : ∀ r ∈ (first.2.declareEnumRows id scope rows).1, s.symbols.labels.size ≤ r.label ∧
        (r.label, id) ∈ (first.2.declareEnumRows id scope rows).2.rowLabels := fun r hr =>
      ⟨Nat.le_trans hlater.labels (hrows r hr).1, (hrows r hr).2⟩
    cases hfirst : first.1 with
    | none => exact ⟨hnodup, hothers⟩
    | some e =>
      obtain ⟨hlabel, hlt, hmem⟩ := hmade hfirst
      refine ⟨List.nodup_cons.mpr ⟨fun h => ?_, hnodup⟩, List.forall_mem_cons.mpr ⟨?_, hothers⟩⟩
      · obtain ⟨r, hr, heq⟩ := List.mem_map.mp h
        exact Nat.not_lt_of_le (hrows r hr).1 (heq ▸ hlt)
      · exact ⟨Nat.le_of_eq hlabel.symm, (hrest.later hsound).kept hmem⟩

namespace Runs

variable {id : LineId}

theorem declareEnumeration {part : Line.CommandPart} (hopen : may.declare id)
    (hid : id < s.lines.size) (henum : (s.line id).directive? = some .enumeration) :
    Runs may s (s.declareEnumeration id part) := by
  refine of fun hs hr => ?_
  have hroom := hr.room id (may.sub id hopen) hid
  obtain ⟨hnodup, hrows⟩ := labels_declareEnumRows (part.body.getD []) hs hid henum hroom
  refine (declareEnumRows _ hroom).seq fun hs hrun => setDeclared hopen ⟨rfl, nofun, nofun, nofun⟩ ?_ ⟨nofun, ?_⟩
  · rw [Line.isData, (hrun.linesKept hs).directive id hid, henum]
    rfl
  · rintro _ ⟨⟩
    exact ⟨hnodup, fun r hr => (hrows r hr).2⟩

theorem checkParameters : ∀ (tokens : List Token) {s : Assembly} {seen : List String},
      Runs may s (s.checkParameters id seen tokens).2
  | [], s, _ => refl s
  | token :: tokens, s, seen => by
    unfold Assembly.checkParameters
    split
    · exact fail s id _ _
    · split
      · exact fail s id _ _
      · exact checkParameters tokens

theorem defineMacro {symbols : SymbolTable} {definition : MacroDefinition}
    (h : s.symbols.defineMacro definition = .ok symbols) : Runs may s { s with symbols } := by
  unfold SymbolTable.defineMacro at h
  split at h
  · cases h
  · cases h
    exact single (.register _ rfl rfl rfl rfl fun _ => .inl)

theorem declareMacro (s : Assembly) (id : LineId) (part : Line.CommandPart) :
    Runs may s (s.declareMacro id part) := by
  unfold Assembly.declareMacro
  split
  · exact refl s
  rename_i name parameters _
  split
  · exact fail s id _ _
  split
  · rename_i t heq
    exact (checkParameters parameters).result heq
  rename_i t heq
  refine ((checkParameters parameters).result heq).trans ?_
  simp only
  split
  · rename_i hmacro
    exact defineMacro hmacro
  · exact symbolError t id _ _

/-! ## Included files -/

theorem around (hlines : s'.lines = s.lines) (hsymbols : s'.symbols = s.symbols)
    (hdiagnostics : s'.diagnostics = s.diagnostics) (hpass : s'.pass = s.pass)
    (hprogress : s'.progress = s.progress) (hjournal : s'.journal = s.journal)
    (hunits : s'.units.map (fun u => u.items) = s.units.map fun u => u.items)
    (hcursor : s'.cursor = s.cursor) (himage : s'.image = s.image) (hrows : s'.rowLabels = s.rowLabels)
    (hstopped : s.stopped = true → s'.stopped = true) : Runs may s s' :=
  single (.around hlines hsymbols hdiagnostics hpass (by rw [hprogress]) hjournal hunits hcursor himage hrows hstopped)

theorem fileArgument (s : Assembly) (id : LineId) (part : Line.CommandPart) :
    Runs may s (s.fileArgument id part).2 := by
  unfold Assembly.fileArgument
  split
  · exact refl s
  rename_i token _ _
  split
  · rename_i t heq
    exact (parseExpression s id token).result heq
  · rename_i e t heq
    have hread : Runs may s t := (parseExpression s id token).result heq
    split
    · exact hread
    · exact hread.trans (fail t id _ _)

theorem firstFile : ∀ (paths : List Path) (s : Assembly), Runs may s (s.firstFile paths).2
  | [], s => refl s
  | path :: paths, s => by
    unfold Assembly.firstFile
    have hnote : Runs may s { s with lookups := path :: s.lookups } :=
      around rfl rfl rfl rfl rfl rfl rfl rfl rfl rfl fun h => h
    refine hnote.trans ?_
    simp only
    split
    · exact refl _
    · exact firstFile paths _

theorem locate (s : Assembly) (id : LineId) (name : String) : Runs may s (s.locate id name).2 := by
  unfold Assembly.locate
  simp only
  split
  · rename_i found t heq
    exact (firstFile _ s).result heq
  · rename_i t heq
    exact ((firstFile _ s).result heq).trans (fail t id _ _)

theorem noteReading (s : Assembly) (path : Path) : Runs may s (s.noteReading path) := by
  unfold Assembly.noteReading
  split
  · split
    · exact around rfl rfl rfl rfl rfl rfl rfl rfl rfl rfl fun _ => rfl
    · exact refl s
  · exact refl s

end Runs

theorem items_addInclude (source : SourceId) (root : Path) :
    ∀ units : List SourceUnit, (addInclude.go source root units).map (fun u => u.items) = units.map fun u => u.items
  | [] => rfl
  | u :: us => by
    unfold addInclude.go
    split
    · rfl
    · rw [List.map_cons, List.map_cons, items_addInclude source root us]

theorem change_addInclude (s : Assembly) (source : SourceId) :
    Change may s (s.addInclude source) ∧ (s.addInclude source).lines = s.lines := by
  unfold addInclude
  split
  · exact ⟨.around rfl rfl rfl rfl rfl rfl rfl rfl rfl rfl fun h => h, rfl⟩
  · exact ⟨.around rfl rfl rfl rfl rfl rfl (items_addInclude source _ _) rfl rfl rfl fun h => h, rfl⟩

/-- What is done with items is a run, if they may be declared, and new lines as well. -/
def RunsDeclaring (f : Assembly → List Item → Assembly) : Prop :=
  ∀ (may : Permit) (s : Assembly) (items : List Item), may.Allows s.lines.size →
    (∀ item ∈ items, may.declare item.id) →
    (∀ item ∈ items, item.Proper fun id => may.change id ∧ id < s.lines.size) → Runs may s (f s items)

theorem Changes.declaring (h : Changes (.undeclared s.lines.size) s s') : Changes (.from s.lines.size) s s' := by
  refine h.mono ?_ ?_ ?_
  · exact fun _ hid => hid
  · exact fun _ hid => hid.elim
  · exact fun _ hid => hid.elim

theorem Changes.widen (h : Changes (.from s.lines.size) s s') (hnew : may.Allows s.lines.size) :
    Changes may s s' := by
  refine h.mono ?_ ?_ ?_
  · exact fun id hid => may.sub id (hnew id hid).1
  · exact fun id hid => (hnew id hid).1
  · exact fun id hid => (hnew id hid.1).2

/-- What is done with new items changes only new lines, and puts only lines below others that are made
then. -/
theorem RunsDeclaring.between {f : Assembly → List Item → Assembly}
    (hf : RunsDeclaring f) (hs : s.Sound) (h : Changes (.undeclared s.lines.size) s s')
    (hitems : NewItems s s' items) :
    Changes (.between s.lines.size s'.lines.size) s' (f s' items) := by
  have hregion := h.declaring.region hs (region_from s)
  exact hf _ s' items (allows_between h.size_le) (fun item hitem => (hitems.proper item hitem).id.1)
    hitems.proper (h.sound hs) ⟨hregion.room, hregion.below⟩

theorem RunsDeclaring.changes {f : Assembly → List Item → Assembly}
    (hf : RunsDeclaring f) (hs : s.Sound) (h : Changes (.undeclared s.lines.size) s s')
    (hitems : NewItems s s' items) : Changes (.from s.lines.size) s' (f s' items) := by
  refine (hf.between hs h hitems).mono ?_ ?_ ?_
  · exact fun _ hid => hid
  · exact fun _ hid => hid
  · exact fun _ hid => ⟨hid.1, hid.1⟩

theorem NewItems.attach {n : Nat} (h : NewItems s s' items) (hnew : may.Allows s.lines.size) (hle : s'.lines.size ≤ n) :
    ∀ item ∈ items, item.Proper fun id => may.attach id ∧ id < n :=
  fun item hitem => (h.proper item hitem).mono fun id hid =>
    ⟨(hnew id hid.1).2, Nat.lt_of_lt_of_le hid.2 hle⟩

theorem NewItems.loose {u : Assembly} (h : NewItems s s' items) (hs : s.Sound)
    (hmade : Changes (.undeclared s.lines.size) s s')
    (hdone : Changes (.between s.lines.size s'.lines.size) s' u) :
    ∀ k ∈ Item.allLines items, u.Loose k := by
  intro k hk owner hheld
  obtain ⟨item, hitem, hk⟩ := Item.mem_allLines.mp hk
  obtain ⟨hge, hlt⟩ := (h.proper item hitem).mem_lines k hk
  have hmid : k ∈ s'.held owner :=
    (hdone.attaches (hmade.sound hs) hheld).resolve_right fun hid => absurd hid.1.2 (Nat.not_le_of_lt hlt)
  have hold : k ∈ s.held owner := (hmade.attaches hs hmid).resolve_right fun hid => hid.1
  exact absurd (hs.held_lt hold) (Nat.not_lt_of_le hge)

theorem NewItems.grows {u : Assembly} (h : NewItems s s' items)
    (hs : s.Sound) (hmade : Changes (.undeclared s.lines.size) s s')
    (hdone : Changes (.between s.lines.size s'.lines.size) s' u) (hid : id < s.lines.size) :
    u.Grows id [items] := by
  unfold Grows
  rw [lineIds, List.flatten_singleton]
  refine ⟨h.distinct, fun k hk => ⟨?_, h.loose hs hmade hdone k hk⟩⟩
  obtain ⟨item, hitem, hk⟩ := Item.mem_allLines.mp hk
  exact Nat.lt_of_lt_of_le hid ((h.proper item hitem).mem_lines k hk).1

theorem includeText_eq (declare : Assembly → List Item → Assembly) (id : LineId) (path : Path)
    (text : String) (hs : s.Sound) :
    ∃ t items, Changes (.undeclared s.lines.size) s t ∧ NewItems s t items ∧ includeText declare s id path text =
        (declare t items).closeFile.setDirectiveState id (.included path items) := by
  have hloaded : Added (.undeclared s.lines.size) s (s.loadSource path text).2 (s.loadSource path text).1.2.2 :=
    added_loadSource hs path text
  unfold includeText
  simp only
  generalize (s.loadSource path text).1.2.2 = ids at hloaded ⊢
  generalize (s.loadSource path text).1.1 = source
  generalize (s.loadSource path text).2 = loaded at hloaded ⊢
  obtain ⟨hadd, hlines⟩ :=
    (change_addInclude loaded source : Change _ loaded (loaded.addInclude source) ∧ _)
  generalize loaded.addInclude source = t at hadd hlines ⊢
  have hadded : Added (.undeclared s.lines.size) s (t.openFile path) ids :=
    (hloaded.tail hadd hlines).tail (.nest ..) rfl
  obtain ⟨harrange, hitems⟩ := hadded.arrange hs
  exact ⟨_, _, harrange, hitems, rfl⟩

namespace Runs

theorem includeText {declare : Assembly → List Item → Assembly} {id : LineId} {path : Path}
    {text : String} {part : Line.CommandPart} (hopen : may.declare id) (hid : id < s.lines.size)
    (hkind : (s.line id).kind = .command part) (hinclude : part.directive = .includeSource)
    (hnew : may.Allows s.lines.size) (hdeclare : RunsDeclaring declare) :
    Runs may s (includeText declare s id path text) := by
  refine of fun hs _ => ?_
  obtain ⟨t, items, hload, hitems, heq⟩ := includeText_eq declare id path text hs
  rw [heq]
  have hbetween := hdeclare.between hs hload hitems
  have hdeclared := hdeclare.changes hs hload hitems
  have hrun : Changes (.from s.lines.size) s (declare t items) := hload.declaring.trans hdeclared
  have hdeclare' : Runs may s (declare t items) := fun _ _ => hrun.widen hnew
  have hleft : Changes (.between s.lines.size t.lines.size) t (declare t items).closeFile :=
    hbetween.tail (.nest ..)
  have hleave : Runs may (declare t items) (declare t items).closeFile :=
    single (.nest ..)
  -- the directive itself is no new line
  have hsame : ((declare t items).closeFile.line id).kind = .command part :=
    (hrun.kind_eq hs hid (Nat.not_le_of_lt hid)).trans hkind
  refine (hdeclare'.trans hleave).trans (single (change_setDirectiveState (may.sub id hopen) nofun nofun
    (claims_of_state nofun nofun) (fun part' hkind' => ?_) (Line.not_holds ?_) (fun _ hmem => ?_)
    (hitems.grows hs hload hleft hid) (.inl hopen)))
  · rw [hsame] at hkind'
    cases hkind'
    exact hinclude
  · rw [Line.isData, directive_of_kind hsame, hinclude]
    rfl
  · rw [List.mem_singleton.mp hmem]
    exact hitems.attach hnew hdeclared.size_le

theorem checkPlacement (s : Assembly) (id : LineId) (d : Directive) : Runs may s (s.checkPlacement id d).2 := by
  unfold Assembly.checkPlacement
  split
  · exact fail s id _ _
  · exact checkLabel s id

end Runs

/-! ## Declaring a line -/

theorem declareInclude_cases (declare : Assembly → List Item → Assembly) (s : Assembly) (id : LineId)
    (part : Line.CommandPart) :
    (∀ may, Runs may s (declareInclude declare s id part)) ∨ ∃ t path text, (∀ may, Runs may s t) ∧
        declareInclude declare s id part = includeText declare t id path text := by
  unfold declareInclude
  split
  · rename_i t heq
    exact .inl fun _ => (Runs.fileArgument s id part).result heq
  rename_i name t heq
  have hfile : ∀ may, Runs may s t := fun _ => (Runs.fileArgument s id part).result heq
  split
  · rename_i u heq
    exact .inl fun may => (hfile may).trans ((Runs.locate t id name).result heq)
  rename_i path data u heq
  have hfound : ∀ may, Runs may s u := fun may =>
    (hfile may).trans ((Runs.locate t id name).result heq)
  simp only
  split
  · exact .inl fun may => (hfound may).trans (.fail u id _ _)
  split
  · exact .inl fun may => (hfound may).trans (.fail u id _ _)
  have hread : ∀ may, Runs may s (u.noteReading path) := fun may =>
    (hfound may).trans (.noteReading u path)
  split
  · exact .inl fun may => (hread may).trans (.fail _ id _ _)
  · rename_i text _
    exact .inr ⟨u.noteReading path, path, text, hread, rfl⟩

/-- A directive changes its own line, or takes in a text. -/
theorem declareCommand_cases (declare : Assembly → List Item → Assembly)
    {part : Line.CommandPart} (hkind : (s.line id).kind = .command part) (hid : id < s.lines.size) :
    (∀ may : Permit, may.declare id → Runs may s (declareCommand declare s id part)) ∨
      ∃ t path text, (∀ may : Permit, may.change id → Runs may s t) ∧ part.directive = .includeSource ∧
        declareCommand declare s id part = includeText declare t id path text := by
  unfold declareCommand
  simp only
  have harguments : ∀ may, Runs may s (s.checkArguments id) := fun _ => .checkArguments s id
  split
  · exact .inl fun may _ => harguments may
  split
  · rename_i t heq
    exact .inl fun may _ => (harguments may).trans ((Runs.checkPlacement _ id _).result heq)
  rename_i t heq
  have hplaced : ∀ may, Runs may s t := fun may =>
    (harguments may).trans ((Runs.checkPlacement _ id _).result heq)
  -- the label in front comes first, whatever the directive
  have hlabel : ∀ may : Permit, may.change id → Runs may s (t.defineLineLabel id) :=
    fun may hown => (hplaced may).andThen fun hle =>
      .defineLineLabel hown (Nat.lt_of_lt_of_le hid hle)
  have hown : ∀ (may : Permit) {u : Assembly}, may.declare id → (id < (t.defineLineLabel id).lines.size →
        ((t.defineLineLabel id).line id).kind = .command part → Runs may (t.defineLineLabel id) u) →
      Runs may s u := fun may u hopen h =>
    (hlabel may (may.sub id hopen)).seq fun hs hrun => by
      have hsame : Changes .still s t := hplaced .still hs ⟨fun _ h => h.elim, fun _ h => h.elim⟩
      refine h (Nat.lt_of_lt_of_le hid hrun.size_le) ?_
      exact (sameKinds_defineLineLabel t id id).trans ((hsame.kind_eq hs hid nofun).trans hkind)
  have hgroup : part.directive.opens .endGroup = true → ∀ may : Permit, may.declare id →
      Runs may s ((t.defineLineLabel id).declareGroup id part) := fun hgroup may hopen =>
    hown may hopen fun _ hsame => .declareGroup hopen hsame hgroup
  split
  · rename_i hdefine
    exact .inl fun may hopen => hown may hopen fun hlt hsame => .declareConstant hopen hlt (hdefine ▸ directive_of_kind hsame)
  · rename_i henum
    exact .inl fun may hopen => hown may hopen fun hlt hsame => .declareEnumeration hopen hlt (henum ▸ directive_of_kind hsame)
  · rename_i hd
    exact .inl (hgroup (hd ▸ rfl))
  · rename_i hd
    exact .inl (hgroup (hd ▸ rfl))
  · rename_i hd
    exact .inl (hgroup (hd ▸ rfl))
  · exact .inl fun may hopen => hown may hopen fun _ _ => .declareMacro _ id part
  · rename_i hinclude
    rcases declareInclude_cases declare (t.defineLineLabel id) id part with h | h
    · exact .inl fun may hopen => hown may hopen fun _ _ => h may
    · obtain ⟨u, path, text, hrun, heq⟩ := h
      exact .inr ⟨u, path, text, fun may hown => (hlabel may hown).trans (hrun may), hinclude, heq⟩
  · exact .inl fun may hopen => hlabel may (may.sub id hopen)

/-- A line declares something of its own, or takes in a text. -/
theorem declareLine_cases (declare : Assembly → List Item → Assembly) (hid : id < s.lines.size) :
    (∀ may : Permit, may.declare id → Runs may s (declareLine declare s id)) ∨
      ∃ part t path text, (s.line id).kind = .command part ∧ part.directive = .includeSource ∧
        (∀ may : Permit, may.change id → Runs may s t) ∧
        declareLine declare s id = includeText declare t id path text := by
  unfold declareLine
  simp only
  split
  · exact .inl fun may _ => .refl s
  split
  · exact .inl fun may hopen => .defineLineLabel (may.sub id hopen) hid
  · rename_i part hkind
    rcases declareCommand_cases declare hkind hid with h | h
    · exact .inl h
    · obtain ⟨t, path, text, hrun, hinclude, heq⟩ := h
      exact .inr ⟨part, t, path, text, hkind, hinclude, hrun, heq⟩
  · rename_i part hkind
    exact .inl fun may hopen => .declareVariable (may.sub id hopen) hid hkind
  · exact .inl fun may _ => .refl s

namespace Runs

theorem declareLine {declare : Assembly → List Item → Assembly} {id : LineId} (hopen : may.declare id)
    (hid : id < s.lines.size) (hnew : may.Allows s.lines.size) (hdeclare : RunsDeclaring declare) :
    Runs may s (declareLine declare s id) := by
  rcases declareLine_cases declare hid with h | h
  · exact h may hopen
  obtain ⟨part, t, path, text, hkind, hinclude, hrun, heq⟩ := h
  rw [heq]
  refine (hrun may (may.sub id hopen)).seq fun hs hchanges => ?_
  obtain ⟨part', hkind', hdirective⟩ := (hchanges.linesKept hs).exists_command hid hkind
  have hle := hchanges.size_le
  exact includeText hopen (Nat.lt_of_lt_of_le hid hle) hkind' (hdirective.trans hinclude)
    (allows_mono hnew hle) hdeclare

theorem declareWithin : ∀ bound : Budget, RunsDeclaring (declareWithin bound)
  | .spent, _, s, _, _, _, _ => refl s
  | .left _ files, may, s, items, hnew, hopen, hitems => by
    unfold Assembly.declareWithin
    refine foldl (Nat.le_refl _) fun t hle item hitem => ?_
    split
    · exact refl t
    · exact declareLine (hopen item hitem) (Nat.lt_of_lt_of_le (hitems item hitem).id.2 hle)
        (allows_mono hnew hle) (declareWithin files)

theorem declare : RunsDeclaring Assembly.declare := declareWithin .full

end Runs

end Assembly

end CrossAssembler
