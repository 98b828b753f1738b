import CrossAssembler.Proofs.Assembly.Outline

/-!
# Lines that were just read

Principal result: `loaded_addFiles` — nothing has been done with the lines of files that were taken in.
-/

namespace CrossAssembler

variable {set : InstructionSet} {l : ClassifiedLine}

theorem Arena.pushAll_of_free {a : Arena} (h : a.free = []) (ls : List Line) :
    a.pushAll ls = (List.range' a.size ls.length, ⟨a.lines ++ ls.toArray, []⟩) := by
  induction ls generalizing a with
  | nil =>
    obtain ⟨lines, free⟩ := a
    cases h
    simp [pushAll]
  | cons l ls ih =>
    have hpush : a.push l = (a.size, ⟨a.lines.push l, []⟩) := by
      unfold push size
      rw [h]
    have hsize : (⟨a.lines.push l, []⟩ : Arena).size = a.size + 1 := Array.size_push l
    rw [pushAll, hpush]
    simp [ih, hsize, List.range'_succ]

/-- What a line is when it is read: not known, an assignment, a directive or an instruction. Nothing is known about it
but its parts. -/
inductive Line.Kind.IsRead : Line.Kind → Prop
  | unknown : IsRead .unknown
  | variable (name expression : Token) : IsRead (.variable { name, expression })
  | command (d : Directive) (keyword rest : Token) :
      IsRead (.command { directive := d, keyword, arguments := d.splitArguments rest })
  | instruction (mnemonic : Token) (base : String) (forced : Option Nat) (operand : Token) :
      IsRead (.instruction { mnemonic, base, forced, operand })

theorem isRead_keywordLine {content : Token} {p : Piece} {kind : Line.Kind}
    (h : keywordLine? set content p = some kind) : kind.IsRead := by
  unfold keywordLine? at h
  simp only at h
  split at h
  · cases h
    exact .command _ _ _
  · split at h
    · cases h
      exact .instruction _ _ _ _
    · cases h

theorem isRead_classifyPieces (set : InstructionSet) (content : Token) (ps : List Piece) :
    (classifyPieces set content ps).2.IsRead := by
  induction ps with
  | nil => exact .unknown
  | cons p ps ih =>
    unfold classifyPieces
    split
    · split
      · rename_i hkind
        exact isRead_keywordLine hkind
      · exact ih
    · split
      · exact .variable _ _
      · exact .unknown
    · exact ih

theorem classifyContent_of_mem {source : SourceId} {ls : List SourceLine}
    {pending : PendingComment} (h : l ∈ classifyLines set source pending ls) :
    classifyContent set l.origin = (l.label, l.kind) := by
  induction ls generalizing pending with
  | nil => cases h
  | cons line ls ih =>
    unfold classifyLines at h
    simp only at h
    split at h
    · exact ih h
    rcases List.mem_cons.mp h with h | h
    · have horigin := congrArg ClassifiedLine.origin h
      have hlabel := congrArg ClassifiedLine.label h
      have hkind := congrArg ClassifiedLine.kind h
      simp only at horigin hlabel hkind
      rw [horigin, hlabel, hkind]
    · exact ih h

theorem isRead_of_mem_classifySource {source : SourceId} {file : SourceFile}
    (h : l ∈ classifySource set source file) : l.kind.IsRead := by
  have hkind : l.kind = (classifyContent set l.origin).2 := by rw [classifyContent_of_mem h]
  rw [hkind]
  exact isRead_classifyPieces set l.origin _

theorem Line.Kind.IsRead.isFresh (h : l.kind.IsRead) (scope : ScopeId) : (l.toLine scope).IsFresh := by
  refine ⟨rfl, fun part hpart => ?_⟩
  have hkind : l.kind = .command part := Assembly.kind_of_command (l := l.toLine scope) hpart
  rw [hkind] at h
  cases h
  exact ⟨rfl, rfl⟩

namespace Assembly

variable {s : Assembly}

/-- The lines of a file. -/
def unitLines (u : SourceUnit) : List LineId := u.items.map Item.id

/-- Whether files have been taken in, and nothing has been done with them. -/
structure Loaded (s : Assembly) : Prop where
  free : s.lines.free = []
  freeScopes : s.symbols.freeScopes = []
  fresh : ∀ id < s.lines.size, (s.line id).IsFresh
  bounded : ∀ id ∈ s.units.flatMap unitLines, id < s.lines.size
  nodup : (s.units.flatMap unitLines).Nodup
  analyzed : s.analyzed = 0
  labels : s.symbols.labels = #[]
  diagnostics : s.diagnostics = #[]
  messages : s.messages = #[]

theorem loaded_begin (settings : Settings) (files : Files) : (begin settings files).Loaded :=
  ⟨rfl, rfl, fun id hid => absurd hid (Nat.not_lt_zero id), nofun, .nil, rfl, rfl, rfl, rfl⟩

theorem Loaded.addFile (h : s.Loaded) (path : Path) (text : String) : (s.addFile path text).Loaded := by
  unfold Assembly.addFile loadSource
  simp only [Arena.pushAll_of_free h.free, SymbolTable.addScope_of_free h.freeScopes]
  generalize s.sources.add path text = added
  obtain ⟨source, sources⟩ := added
  simp only
  generalize hls : (classifySource s.instructions source ⟨path, text⟩).map
    (fun l => l.toLine s.symbols.scopes.size) = ls
  have hnew : ∀ l ∈ ls, l.IsFresh := by
    intro l hl
    rw [← hls] at hl
    obtain ⟨c, hc, rfl⟩ := List.mem_map.mp hl
    exact (isRead_of_mem_classifySource hc).isFresh _
  have hsize : (⟨s.lines.lines ++ ls.toArray, []⟩ : Arena).size = s.lines.size + ls.length := by
    simp [Arena.size]
  have hids : ∀ ids : List LineId, (ids.map Item.line).map Item.id = ids := fun ids => by
    rw [List.map_map]
    exact List.map_id ids
  refine ⟨rfl, h.freeScopes, fun id hid => ?_, fun id hid => ?_, ?_, h.analyzed, h.labels, h.diagnostics, h.messages⟩
  · simp only [hsize] at hid
    by_cases hlt : id < s.lines.lines.size
    · have hold := h.fresh id hlt
      unfold line Arena.get at hold ⊢
      rwa [Array.getElem?_append_left hlt]
    have hle := Nat.le_of_not_lt hlt
    have hlast : id - s.lines.lines.size < ls.length := by
      unfold Arena.size at hid
      omega
    unfold line Arena.get
    simp only [Array.getElem?_append_right hle, List.getElem?_toArray, List.getElem?_eq_getElem hlast,
      Option.getD_some]
    exact hnew _ (List.getElem_mem hlast)
  · simp only [List.flatMap_append, List.flatMap_singleton, unitLines, hids, List.mem_append, List.mem_range'_1,
      hsize] at hid ⊢
    rcases hid with hid | hid
    · exact Nat.lt_add_right _ (h.bounded id hid)
    · exact hid.2
  · simp only [List.flatMap_append, List.flatMap_singleton, unitLines, hids]
    refine List.nodup_append.mpr ⟨h.nodup, List.nodup_range', fun id hold id' hnew' heq => ?_⟩
    have hlt := h.bounded id hold
    rw [heq] at hlt
    exact Nat.not_le_of_lt hlt (List.mem_range'_1.mp hnew').1

theorem loaded_addFiles (h : s.Loaded) (inputs : List (Path × String)) :
    (inputs.foldl (fun s f => s.addFile f.1 f.2) s).Loaded := by
  induction inputs generalizing s with
  | nil => exact h
  | cons f inputs ih => exact ih (h.addFile f.1 f.2)

end Assembly

end CrossAssembler
