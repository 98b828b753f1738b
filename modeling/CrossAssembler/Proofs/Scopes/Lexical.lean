import CrossAssembler.Assembly.Session
import CrossAssembler.Proofs.Scopes.Compilation

/-!
# Scopes of assemblies and sessions

A session releases the scopes of a file together with all lines in them, so that no line is left in a scope that is
used again.

Principal result: `lexical_scoping` — in all of them every way outwards ends in the global scope, and a search finds
the nearest label on it.
-/

namespace CrossAssembler

/-! ## Releasing lines -/

namespace Arena

variable {a : Arena}

theorem Idle.releaseOne (h : a.Idle) (id : LineId) : (a.releaseOne id).Idle := by
  obtain ⟨hnodup, hglobal⟩ := h
  have hget := get_releaseOne a id
  have hkept : ∀ j, (a.get j).scope = globalScope → ((a.releaseOne id).get j).scope = globalScope := by
    intro j hj
    rw [hget]
    split
    · rfl
    · exact hj
  rcases releaseOne_cases a id with ⟨-, hsame⟩ | ⟨hnot, heq⟩
  · rw [hsame]
    exact ⟨hnodup, hglobal⟩
  have hlist : (a.releaseOne id).free = id :: a.free := by rw [heq]
  unfold Idle
  rw [hlist]
  refine ⟨List.nodup_cons.mpr ⟨hnot, hnodup⟩, List.forall_mem_cons.mpr ⟨?_, fun j hj => hkept j (hglobal j hj)⟩⟩
  rw [hget, if_pos ⟨rfl, hnot⟩]
  rfl

theorem release_foldl (ids : List LineId) (h : a.Idle) : (ids.foldl Arena.releaseOne a).Idle ∧
      (∀ j, (ids.foldl Arena.releaseOne a).get j = Line.vacant ∨ (ids.foldl Arena.releaseOne a).get j = a.get j) ∧
      ∀ j ∈ ids, ((ids.foldl Arena.releaseOne a).get j).scope = globalScope := by
  induction ids generalizing a with
  | nil => exact ⟨h, fun _ => .inr rfl, fun _ hj => absurd hj List.not_mem_nil⟩
  | cons id ids ih =>
    obtain ⟨hidle, hget, hgone⟩ := ih (h.releaseOne id)
    have hone := get_releaseOne a id
    rw [List.foldl_cons]
    refine ⟨hidle, fun j => ?_, List.forall_mem_cons.mpr ⟨?_, hgone⟩⟩
    · rcases hget j with heq | heq
      · exact .inl heq
      · rw [heq, hone]
        split
        · exact .inl rfl
        · exact .inr rfl
    · have hfirst : ((a.releaseOne id).get id).scope = globalScope := by
        rw [hone]
        split
        · rfl
        · rename_i hnot
          exact h.2 id (Classical.not_not.mp fun hfree => hnot ⟨rfl, hfree⟩)
      rcases hget id with heq | heq
      · rw [heq]
        rfl
      · rw [heq]
        exact hfirst

theorem release_spec (ids : List LineId) (h : a.Idle) :
    (a.release ids).Idle ∧ (∀ j, (a.release ids).get j = Line.vacant ∨ (a.release ids).get j = a.get j) ∧
      ∀ j ∈ ids, ((a.release ids).get j).scope = globalScope := by
  obtain ⟨hidle, hget, hgone⟩ := release_foldl (ids.mergeSort fun i j => j ≤ i).eraseReps h
  exact ⟨hidle, hget, fun j hj => hgone j (mem_eraseReps.mpr (List.mem_mergeSort.mpr hj))⟩

end Arena

/-! ## Releasing sources -/

namespace SymbolTable

variable {t : SymbolTable} {scope : ScopeId}

theorem Rooted.inUse_releaseFile (ht : t.Rooted) {source : SourceId} (hused : t.InUse scope)
    (hother : scope = globalScope ∨ (t.scope scope).source ≠ source) :
    (t.releaseFile source).InUse scope ∧ ((t.releaseFile source).scope scope).source = (t.scope scope).source := by
  obtain ⟨h, hv⟩ := ht.valid
  have hstays : scope ∈ (t.afterRelease source h).scopes := ⟨hv.inUse_iff.mp hused, .inr hother⟩
  exact ⟨(hv.releaseFile source).inUse_iff.mpr hstays, (hv.scope_releaseFile source hstays).2⟩

end SymbolTable

namespace Assembly

variable {s : Assembly}

theorem symbols_releaseSources (sources : List SourceId) (s : Assembly) :
    (sources.foldl releaseSource s).symbols = sources.foldl SymbolTable.releaseFile s.symbols ∧
      (sources.foldl releaseSource s).lines = s.lines := by
  induction sources generalizing s with
  | nil => exact ⟨rfl, rfl⟩
  | cons source sources ih => exact ih _

theorem rooted_releaseFiles {t : SymbolTable} (sources : List SourceId) (ht : t.Rooted) :
    (sources.foldl SymbolTable.releaseFile t).Rooted ∧ ∀ scope, t.InUse scope →
      (scope = globalScope ∨ (t.scope scope).source ∉ sources) →
      (sources.foldl SymbolTable.releaseFile t).InUse scope := by
  induction sources generalizing t with
  | nil => exact ⟨ht, fun _ hused _ => hused⟩
  | cons source sources ih =>
    obtain ⟨hrooted, hstays⟩ := ih (ht.releaseFile source)
    refine ⟨hrooted, fun scope hused hother => ?_⟩
    have hfirst : scope = globalScope ∨ (t.scope scope).source ≠ source :=
      hother.imp_right fun hnot heq => hnot (heq ▸ List.mem_cons_self)
    obtain ⟨hused', hsource⟩ := ht.inUse_releaseFile hused hfirst
    refine hstays scope hused' (hother.imp_right fun hnot => ?_)
    rw [hsource]
    exact fun hmem => hnot (List.mem_cons_of_mem source hmem)

/-- Sources go with all lines in their scopes. -/
theorem Scoped.releaseSources (hs : s.Scoped False) (sources : List SourceId) : (s.releaseSources sources).Scoped False := by
  unfold Assembly.releaseSources
  simp only
  generalize howned : s.lines.ownedBy (fun scope => sources.contains (s.symbols.scope scope).source) = owned
  obtain ⟨hidle, hget, hgone⟩ := Arena.release_spec owned hs.idle
  obtain ⟨hsymbols, hlines⟩ := symbols_releaseSources sources { s with lines := s.lines.release owned }
  obtain ⟨hrooted, hstays⟩ := rooted_releaseFiles sources hs.symbols
  refine ⟨hsymbols ▸ hrooted, fun id => ?_, hlines ▸ hidle, False.elim, False.elim, False.elim⟩
  rw [hsymbols, line, hlines]
  change (sources.foldl SymbolTable.releaseFile s.symbols).InUse ((s.lines.release owned).get id).scope
  by_cases hglobal : ((s.lines.release owned).get id).scope = globalScope
  · rw [hglobal]
    exact hrooted.inUse_root
  -- a line that is left is in a scope of another source
  have heq : (s.lines.release owned).get id = s.lines.get id :=
    (hget id).resolve_left fun hvacant => hglobal (by rw [hvacant]; rfl)
  rw [heq]
  refine hstays _ (hs.lines id) (.inr fun hmem => hglobal (hgone id ?_))
  rw [heq] at hglobal
  rw [← howned]
  unfold Arena.ownedBy
  refine List.mem_filter.mpr ⟨List.mem_range.mpr ?_, ?_⟩
  · by_contra hle
    refine hglobal ?_
    rw [Arena.get, Array.getElem?_eq_none (Nat.le_of_not_lt hle)]
    rfl
  · simp only
    rw [Bool.and_eq_true, bne_iff_ne]
    exact ⟨hglobal, List.contains_iff_mem.mpr hmem⟩

theorem scoped_begin (lasting : Prop) (settings : Settings) (files : Files) : (begin settings files).Scoped lasting where
  symbols := SymbolTable.rooted_empty
  lines _ := SymbolTable.rooted_empty.inUse_root
  idle := ⟨List.nodup_nil, fun _ hid => absurd hid List.not_mem_nil⟩
  kept _ := ⟨rfl, rfl, rfl⟩
  recorders _ _ hlabels := absurd hlabels List.not_mem_nil
  branches _ _ _ hlabel := absurd hlabel List.not_mem_nil

/-! ## Histories -/

/-- What can be made of an assembly: files are taken in, analysed and compiled in any order. At any time the work may
be told to stop, or to go on. -/
inductive Context (settings : Settings) (files : Files) : Assembly → Prop
  | begin : Context settings files (.begin settings files)
  | tell {s : Assembly} (stopped : Bool) : Context settings files s → Context settings files { s with stopped }
  | addFile {s : Assembly} (path : Path) (text : String) :
      Context settings files s → Context settings files (s.addFile path text)
  | analyzeFiles {s : Assembly} : Context settings files s → Context settings files s.analyzeFiles
  | compile {s : Assembly} : Context settings files s → Context settings files s.compile

/-- In an assembly nothing is ever released. -/
theorem Context.scoped {settings : Settings} {files : Files} (h : Context settings files s) : s.Scoped True := by
  have hkept : s.Kept .scopes := by
    induction h with
    | begin => exact ⟨nofun, fun _ => scoped_begin True settings files⟩
    | tell stopped _ ih => exact ih.congr rfl rfl rfl rfl rfl rfl rfl rfl
    | addFile path text _ ih => exact ih.addFile path text
    | analyzeFiles _ ih => exact ih.analyzeFiles
    | compile _ ih => exact ih.compile id
  exact hkept.orderly trivial

end Assembly

namespace Session

/-- What can be made of a session: files are added, replaced and removed in any order. At any time the work may be told
to stop, or to go on. -/
inductive Edited (settings : Settings) (files : Files) : Session → Prop
  | begin : Edited settings files (.begin settings files)
  | tell {s : Session} (stopped : Bool) : Edited settings files s → Edited settings files ⟨{ s.assembly with stopped }⟩
  | setFile {s : Session} (path : Path) (text : String) :
      Edited settings files s → Edited settings files (s.setFile path text)
  | removeFile {s : Session} (path : Path) : Edited settings files s → Edited settings files (s.removeFile path).2

variable {s : Session}

theorem scoped_setFile (h : s.assembly.Scoped False) (path : Path) (text : String) :
    (s.setFile path text).assembly.Scoped False := by
  have horderly : ∀ a : Assembly, a.Scoped False → a.Orderly True False := fun _ ha _ => ha
  unfold setFile
  simp only
  split
  · rename_i index u _ _
    have hload := (horderly _ (h.releaseSources (ownedSources u).reverse)).loadSource path text
    have hload := hload.carries.orderly
    unfold release
    generalize (s.assembly.releaseSources (ownedSources u).reverse).loadSource path text = loaded at hload ⊢
    have hset : ∀ units, { loaded.2 with units }.Orderly True False := fun _ => hload.congr rfl rfl rfl
    exact ((hset _).kept.analyzeUnits [index]).orderly.congr rfl rfl rfl trivial
  · have hadd := (horderly _ h).kept.addFile path text
    exact (hadd.analyzeUnits [s.assembly.units.length]).orderly.congr rfl rfl rfl trivial

theorem scoped_removeFile (h : s.assembly.Scoped False) (path : Path) : (s.removeFile path).2.assembly.Scoped False := by
  unfold removeFile
  split
  · rename_i index u _ _
    have hrelease : (release s.assembly u).Scoped False := h.releaseSources _
    have horderly : (release s.assembly u).Orderly True False := fun _ => hrelease
    exact horderly.congr rfl rfl rfl trivial
  · exact h

theorem Edited.scoped {settings : Settings} {files : Files} (h : Edited settings files s) : s.assembly.Scoped False := by
  induction h with
  | begin => exact Assembly.scoped_begin False settings files
  | tell stopped _ ih =>
    have horderly : Assembly.Orderly True False _ := fun _ => ih
    exact horderly.congr rfl rfl rfl trivial
  | setFile path text _ ih => exact scoped_setFile ih path text
  | removeFile path _ ih => exact scoped_removeFile ih path

end Session

/-! ## Lexical scoping -/

/-- Every way outwards from a scope in use leads to the global scope and meets none twice, and a search from there
finds what the nearest scope on it has. Lines are only in scopes in use. -/
theorem lexical_scoping {settings : Settings} {files : Files} {s : Assembly}
    (h : s.Context settings files ∨ ∃ session, Session.Edited settings files session ∧ session.assembly = s) :
    s.symbols.Lexical ∧ ∀ id, s.symbols.InUse (s.line id).scope := by
  rcases h with hcontext | ⟨session, hedited, rfl⟩
  · exact ⟨hcontext.scoped.symbols.lexical, hcontext.scoped.lines⟩
  · exact ⟨hedited.scoped.symbols.lexical, hedited.scoped.lines⟩

/-- A file with a macro that makes a label, and one that calls it. -/
def callingSession : Session :=
  let libraryText := ".MACRO mark\nspot: .DB 1\n.ENDM\n"
  ((Session.begin {} fun _ => .missing).setFile "library.asm" libraryText).setFile "main.asm" "mark\n"

/-- The label of the call is seen from inside of it and not from the file around it. -/
theorem lexical_callingSession : (callingSession.assembly.symbols.findLabel? "spot" 3 = some 0 ∧
      callingSession.assembly.symbols.findLabel? "spot" 2 = none) ∧
    ∀ session ∈ [callingSession, callingSession.setFile "main.asm" "NOP\n", (callingSession.removeFile "library.asm").2],
      session.assembly.symbols.Lexical ∧ ∀ id, session.assembly.symbols.InUse (session.assembly.line id).scope := by
  have hbegin : Session.Edited {} (fun _ => .missing) (.begin {} fun _ => .missing) := .begin
  have hcalling : Session.Edited {} (fun _ => .missing) callingSession := by
    unfold callingSession
    exact (hbegin.setFile _ _).setFile _ _
  have hseen : callingSession.assembly.symbols.findLabel? "spot" 3 = some 0 ∧
      callingSession.assembly.symbols.findLabel? "spot" 2 = none := by decide +kernel
  refine ⟨hseen, List.forall_mem_cons.mpr ⟨?_, List.forall_mem_cons.mpr ⟨?_, List.forall_mem_singleton.mpr ?_⟩⟩⟩
  · exact lexical_scoping (.inr ⟨_, hcalling, rfl⟩)
  · exact lexical_scoping (.inr ⟨_, hcalling.setFile "main.asm" "NOP\n", rfl⟩)
  · exact lexical_scoping (.inr ⟨_, hcalling.removeFile "library.asm", rfl⟩)

end CrossAssembler
