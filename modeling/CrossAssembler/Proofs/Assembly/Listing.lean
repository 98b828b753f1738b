import CrossAssembler.Assembly.Session
import Mathlib

/-!
# The labels that are listed for a file

A file of a session is listed with the labels of its own source and of the sources it includes. These are told by
the names of the sources, and sources of different files may have the same name.

Principal result: `listsOwn_iff` — this is so exactly when no label of another source comes from a source with the
name of one of the file's own.
-/

namespace CrossAssembler

/-! ## Labels by their numbers -/

namespace SymbolTable

variable {t : SymbolTable}

theorem toList_labels (t : SymbolTable) : t.labels.toList = (List.range t.labels.size).map t.label := by
  refine List.ext_getElem (by simp) fun i hi hi' => ?_
  have hlt : i < t.labels.size := by simpa using hi
  rw [List.getElem_map, List.getElem_range, SymbolTable.label, Array.getElem?_eq_getElem hlt]
  rfl

theorem filter_labels (t : SymbolTable) (p : Label → Bool) :
    t.labels.toList.filter p = (t.labelsWhere p).map t.label := by
  rw [toList_labels, List.filter_map]
  rfl

theorem mem_labels_of_bound {id : LabelId} (h : (t.label id).bound = true) : t.label id ∈ t.labels.toList := by
  unfold SymbolTable.label at h ⊢
  cases hfound : t.labels[id]? with
  | none =>
    rw [hfound] at h
    cases h
  | some l => exact Array.mem_toList_iff.mpr (Array.mem_of_getElem? hfound)

theorem mem_labelsWhere {p : Label → Bool} (hp : ∀ l, p l = true → l.bound = true) {id : LabelId} :
    id ∈ t.labelsWhere p ↔ p (t.label id) = true := by
  unfold labelsWhere
  rw [List.mem_filter, List.mem_range]
  refine and_iff_right_of_imp fun hid => ?_
  by_contra hle
  have hbound := hp _ hid
  rw [SymbolTable.label, Array.getElem?_eq_none (Nat.le_of_not_lt hle)] at hbound
  cases hbound

/-- Whether a label is listed. -/
def isListed (t : SymbolTable) (l : Label) : Bool :=
  l.bound && l.reach != .nameless && ((t.scope l.scope).kind == .global || (t.scope l.scope).kind == .file)

theorem bound_of_isListed (l : Label) (h : t.isListed l = true) : l.bound = true := by
  simp only [isListed, Bool.and_eq_true] at h
  exact h.1.1

theorem publicLabels_eq (t : SymbolTable) :
    ∃ ids : List LabelId, ids.Perm (t.labelsWhere t.isListed) ∧ t.publicLabels = ids.map t.label := by
  have hsort : ∀ le : Label → Label → Bool, ∃ ids : List LabelId, ids.Perm (t.labelsWhere t.isListed) ∧
      (t.labels.toList.filter t.isListed).mergeSort le = ids.map t.label := by
    intro le
    refine ⟨(t.labelsWhere t.isListed).mergeSort fun a b => le (t.label a) (t.label b), List.mergeSort_perm _ _, ?_⟩
    rw [filter_labels]
    exact (List.map_mergeSort (f := t.label) (s := le) fun _ _ _ _ => rfl).symm
  exact hsort _

end SymbolTable

namespace Assembly

variable {s : Assembly} {id : LabelId}

/-- Whether a label can be seen from outside: it is shown under a name in the global scope or in a file, and is no
parameter of a call. -/
structure Public (s : Assembly) (id : LabelId) : Prop where
  bound : (s.symbols.label id).bound = true
  named : (s.symbols.label id).reach ≠ .nameless
  outer : (s.symbols.scope (s.symbols.label id).scope).kind = .global ∨
    (s.symbols.scope (s.symbols.label id).scope).kind = .file
  ordinary : (s.symbols.label id).kind ≠ .parameter

/-- A label as it is shown outside. -/
def entryOf (s : Assembly) (id : LabelId) : LabelEntry :=
  let l := s.symbols.label id
  { name := l.name, value := l.value, kind := l.kind, file := s.sources.name l.source, line := l.token.line,
    doc := l.doc }

theorem labelEntries_eq (s : Assembly) :
    ∃ ids : List LabelId, ids.Nodup ∧ (∀ id, id ∈ ids ↔ s.Public id) ∧ s.labelEntries = ids.map s.entryOf := by
  obtain ⟨ids, hperm, heq⟩ := s.symbols.publicLabels_eq
  refine ⟨ids.filter fun id => (s.symbols.label id).kind != .parameter, ?_, fun id => ?_, ?_⟩
  · exact (hperm.nodup_iff.mpr (List.nodup_range.filter _)).filter _
  · rw [List.mem_filter, hperm.mem_iff, SymbolTable.mem_labelsWhere SymbolTable.bound_of_isListed, bne_iff_ne]
    simp only [SymbolTable.isListed, Bool.and_eq_true, bne_iff_ne, Bool.or_eq_true, beq_iff_eq]
    constructor
    · rintro ⟨⟨⟨hbound, hnamed⟩, houter⟩, hordinary⟩
      exact ⟨hbound, hnamed, houter, hordinary⟩
    · intro h
      exact ⟨⟨⟨h.bound, h.named⟩, h.outer⟩, h.ordinary⟩
  · unfold labelEntries
    rw [heq, List.filter_map, List.map_map]
    rfl

end Assembly

namespace Session

variable {s : Session} {path : Path} {u : SourceUnit}

/-- Whether a file is listed with the labels of its own source and of those it includes, each once, and with no
others. -/
def ListsOwn (s : Session) (path : Path) : Prop :=
  ∀ u, s.unit? path = some u → ∃ ids : List LabelId, ids.Nodup ∧
    (∀ id, id ∈ ids ↔ s.assembly.Public id ∧ (s.assembly.symbols.label id).source ∈ ownedSources u) ∧
    s.labels path = ids.map s.assembly.entryOf

theorem labels_eq (hunit : s.unit? path = some u) : ∃ ids : List LabelId, ids.Nodup ∧
      (∀ id, id ∈ ids ↔ s.assembly.Public id ∧ s.assembly.sources.name (s.assembly.symbols.label id).source ∈
        (ownedSources u).map s.assembly.sources.name) ∧
      s.labels path = ids.map s.assembly.entryOf := by
  obtain ⟨ids, hnodup, hmem, heq⟩ := s.assembly.labelEntries_eq
  refine ⟨ids.filter fun id => ((ownedSources u).map s.assembly.sources.name).contains (s.assembly.entryOf id).file,
    hnodup.filter _, fun id => ?_, ?_⟩
  · rw [List.mem_filter, hmem, List.contains_iff_mem]
    rfl
  · unfold labels
    rw [hunit]
    simp only
    rw [heq, List.filter_map]
    rfl

/-- Where a file is listed with its own labels, a source that has the name of one of its own is one of them. -/
theorem ListsOwn.source_mem (hlists : s.ListsOwn path) (hunit : s.unit? path = some u) {id : LabelId}
    (hpublic : s.assembly.Public id)
    (hname : s.assembly.sources.name (s.assembly.symbols.label id).source ∈
      (ownedSources u).map s.assembly.sources.name) :
    (s.assembly.symbols.label id).source ∈ ownedSources u := by
  obtain ⟨ids, hnodup, hmem, heq⟩ := labels_eq hunit
  obtain ⟨own, hown, hmemOwn, heqOwn⟩ := hlists u hunit
  have hsubset : own ⊆ ids := by
    intro other hother
    obtain ⟨hseen, hsource⟩ := (hmemOwn other).mp hother
    exact (hmem other).mpr ⟨hseen, List.mem_map_of_mem hsource⟩
  -- Both lists of numbers give the listing, so they are of one length.
  have hlength : ids.length ≤ own.length := by
    have hboth := congrArg List.length (heq.symm.trans heqOwn)
    rw [List.length_map, List.length_map] at hboth
    exact hboth.le
  have hperm := (List.subperm_of_subset hown hsubset).perm_of_length_le hlength
  exact ((hmemOwn id).mp (hperm.mem_iff.mpr ((hmem id).mpr ⟨hpublic, hname⟩))).2

/-- **Listings are exact where names are.** A file is listed with exactly the labels of its own sources if and only
if no label that can be seen from outside comes from another source with the name of one of them. -/
theorem listsOwn_iff (hunit : s.unit? path = some u) : s.ListsOwn path ↔ ∀ id, s.assembly.Public id →
      s.assembly.sources.name (s.assembly.symbols.label id).source ∈ (ownedSources u).map s.assembly.sources.name →
      (s.assembly.symbols.label id).source ∈ ownedSources u := by
  refine ⟨fun hlists id hpublic hname => hlists.source_mem hunit hpublic hname, fun hnames u' hunit' => ?_⟩
  obtain rfl : u' = u := Option.some.inj (hunit'.symm.trans hunit)
  obtain ⟨ids, hnodup, hmem, heq⟩ := labels_eq hunit
  refine ⟨ids, hnodup, fun id => ?_, heq⟩
  rw [hmem]
  exact and_congr_right fun hpublic => ⟨hnames id hpublic, List.mem_map_of_mem⟩

/-- A file with a local name. -/
def partFiles : Files := fun path =>
  if path = "part.asm" then .file (".DEF .here 1\n".toList.map fun c => c.toNat.toUInt8) else .missing

/-- A file that includes another one. -/
def includingSession : Session :=
  (begin { platform := .spc700 } partFiles).setFile "main.asm" ".INCLUDE \"part.asm\"\n"

/-- The only label that is listed for the file is that of the file it includes. -/
theorem listsOwn_includingSession : (∃ u, includingSession.unit? "main.asm" = some u ∧ ownedSources u = [0, 1]) ∧
      includingSession.ListsOwn "main.asm" := by
  have hfacts : (includingSession.unit? "main.asm").map ownedSources = some [0, 1] ∧
      includingSession.assembly.symbols.labels.toList.map Label.source = [1] := by
    decide +kernel
  obtain ⟨u, hunit, howned⟩ := Option.map_eq_some_iff.mp hfacts.1
  refine ⟨⟨u, hunit, howned⟩, (listsOwn_iff hunit).mpr fun id hpublic _ => ?_⟩
  have hsource := List.mem_map_of_mem (f := Label.source) (SymbolTable.mem_labels_of_bound hpublic.bound)
  rw [hfacts.2, List.mem_singleton] at hsource
  rw [howned, hsource]
  decide

/-- Another file of the session has the name of the included one, and no labels. -/
def sharingSession : Session := includingSession.setFile "part.asm" ".DB 1\n"

/-- That file is listed with the label of the included one all the same. -/
theorem not_listsOwn_sharingSession : ¬ sharingSession.ListsOwn "part.asm" := by
  have hfacts : (sharingSession.unit? "part.asm").map ownedSources = some [2] ∧
      (sharingSession.assembly.symbols.label 0).bound = true ∧
      (sharingSession.assembly.symbols.label 0).reach = .local ∧
      (sharingSession.assembly.symbols.scope (sharingSession.assembly.symbols.label 0).scope).kind = .file ∧
      (sharingSession.assembly.symbols.label 0).kind = .defined ∧
      (sharingSession.assembly.symbols.label 0).source = 1 ∧
      sharingSession.assembly.sources.name 1 = sharingSession.assembly.sources.name 2 := by
    decide +kernel
  intro hlists
  generalize sharingSession = s at hfacts hlists
  obtain ⟨howners, hbound, hreach, hscope, hkind, hsource, hname⟩ := hfacts
  obtain ⟨u, hunit, howned⟩ := Option.map_eq_some_iff.mp howners
  have hpublic : s.assembly.Public 0 := ⟨hbound, by rw [hreach]; decide, .inr hscope, by rw [hkind]; decide⟩
  have hown := hlists.source_mem hunit hpublic (by rw [howned, hsource, hname]; exact List.mem_singleton_self _)
  rw [howned, hsource] at hown
  exact absurd hown (by decide)

end Session

end CrossAssembler
