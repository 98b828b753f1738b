import CrossAssembler.Proofs.Scopes.Compilation

/-!
# Seats of lines

Compiling goes deeper without asking whether the limits allow it. It may, since analysis has asked before: every line
has a seat, that is the calls and the files it is compiled in, and lines are put below another only where the limits
allow one more level.

Principal results: `confined_analyze`, `confined_compileWithin`.
-/

namespace CrossAssembler.Assembly

variable {s s' s'' : Assembly} {id : LineId} {scope : ScopeId} {ids : List LineId} {items : List Item}
variable {place : Nat × List Path}
  {seat seat' : LineId → Nat × List Path}

/-! ## Seats -/

/-- One level deeper: in a file, or in a call or repetition. -/
def enter : Option Path → Nat × List Path → Nat × List Path
  | none, (calls, files) => (calls + 1, files)
  | some path, (calls, files) => (calls, path :: files)

/-- Whether the limits allow one level more. -/
def Enterable : Option Path → Nat × List Path → Prop
  | none, (calls, _) => calls < expansionLimit
  | some path, (_, files) => Includable path files

/-- Whether lines that an assembly has stand at a seat. -/
def SitAt (s : Assembly) (seat : LineId → Nat × List Path) (items : List Item) (place : Nat × List Path) : Prop :=
  ∀ id ∈ Item.allLines items, id < s.lines.size ∧ seat id = place

/-- Whether lines have seats: those of a file stand in that file alone, and those below a line one level deeper than
the line, where the limits allow it. -/
structure Seated (seat : LineId → Nat × List Path) (s : Assembly) : Prop where
  units : ∀ u ∈ s.units, (u.items.map Item.id).Nodup ∧ s.SitAt seat u.items (0, [u.path])
  nested : ∀ id, ∀ x ∈ (s.line id).nested, Enterable x.1 (seat id) ∧ s.SitAt seat x.2 (enter x.1 (seat id))

/-- Whether lines that were there keep their seats. -/
def Agree (s : Assembly) (seat seat' : LineId → Nat × List Path) : Prop := ∀ id < s.lines.size, seat' id = seat id

theorem Agree.trans {seat'' : LineId → Nat × List Path} (hsize : s.lines.size ≤ s'.lines.size) (h : s.Agree seat seat')
    (h' : s'.Agree seat' seat'') : s.Agree seat seat'' := by
  intro id hid
  rw [h' id (Nat.lt_of_lt_of_le hid hsize), h id hid]

theorem SitAt.carry (h : s.SitAt seat items place) (hsize : s.lines.size ≤ s'.lines.size)
    (hagree : s.Agree seat seat') : s'.SitAt seat' items place := by
  intro id hid
  obtain ⟨hlt, hseat⟩ := h id hid
  exact ⟨Nat.lt_of_lt_of_le hlt hsize, (hagree id hlt).trans hseat⟩

theorem lt_of_mem_nested {x : Option Path × List Item} (hx : x ∈ (s.line id).nested) : id < s.lines.size := by
  by_contra hle
  rw [line, Arena.get, Array.getElem?_eq_none (by simpa [Arena.size] using hle)] at hx
  cases hx

namespace Seated

theorem tend (h : s.Seated seat) (ht : Proceeds .scopes s s') : s'.Seated seat := by
  have hkeep : ∀ {items place}, s.SitAt seat items place → s'.SitAt seat items place :=
    fun hsit => hsit.carry (Nat.le_of_eq ht.tends.size.symm) fun _ _ => rfl
  refine ⟨fun u hu => ?_, fun id x hx => ?_⟩
  · rw [ht.tends.units] at hu
    exact ⟨(h.units u hu).1, hkeep (h.units u hu).2⟩
  · obtain ⟨henter, hsit⟩ := h.nested id x (ht.tends.nested id hx)
    exact ⟨henter, hkeep hsit⟩

theorem congr (h : s.Seated seat) (hlines : s'.lines = s.lines) (hunits : s'.units = s.units) : s'.Seated seat := by
  obtain ⟨hu, hn⟩ := h
  constructor
  · simpa only [hunits, SitAt, hlines] using hu
  · simpa only [line, SitAt, hlines] using hn

theorem gain (h : s.Seated seat) (hgains : Gains True True s s' ids scope) (place : Nat × List Path) :
    ∃ seat', s.Agree seat seat' ∧ s'.Seated seat' ∧ ∀ id ∈ ids, seat' id = place := by
  have hagree : s.Agree seat fun id => if s.lines.size ≤ id then place else seat id :=
    fun id hid => if_neg (Nat.not_le_of_lt hid)
  refine ⟨_, hagree, ⟨fun u hu => ?_, fun id x hx => ?_⟩, fun id hid => if_pos (hgains.fresh trivial trivial id hid).1⟩
  · have hmem : (u.path, u.items) ∈ s.units.map fun u => (u.path, u.items) := by
      rw [← hgains.carries.units]
      exact List.mem_map_of_mem hu
    obtain ⟨old, hold, heq⟩ := List.mem_map.mp hmem
    obtain ⟨hpath, hitems⟩ := Prod.mk.inj heq
    rw [← hpath, ← hitems]
    exact ⟨(h.units old hold).1, (h.units old hold).2.carry hgains.carries.size hagree⟩
  · have hx' := hgains.nested trivial trivial id hx
    obtain ⟨henter, hsit⟩ := h.nested id x hx'
    have hseat := hagree id (lt_of_mem_nested hx')
    simp only at hseat ⊢
    rw [hseat]
    exact ⟨henter, hsit.carry hgains.carries.size hagree⟩

theorem attach (h : s.Seated seat) (id : LineId) {f : Line → Line}
    (hnested : ∀ x ∈ (f (s.line id)).nested, x ∈ (s.line id).nested ∨
      Enterable x.1 (seat id) ∧ s.SitAt seat x.2 (enter x.1 (seat id))) : (s.modifyLine id f).Seated seat := by
  have hkeep : ∀ {items place}, s.SitAt seat items place → (s.modifyLine id f).SitAt seat items place :=
    fun hsit => hsit.carry (Nat.le_of_eq (size_modifyLine s id f).symm) fun _ _ => rfl
  refine ⟨fun u hu => ⟨(h.units u hu).1, hkeep (h.units u hu).2⟩, fun j x hx => ?_⟩
  have hfrom : Enterable x.1 (seat j) ∧ s.SitAt seat x.2 (enter x.1 (seat j)) := by
    rw [line_modifyLine] at hx
    split at hx
    · rename_i heq
      obtain ⟨rfl, -⟩ := heq
      exact (hnested x hx).elim (h.nested j x) fun hnew => hnew
    · exact h.nested j x hx
  exact ⟨hfrom.1, hkeep hfrom.2⟩

theorem setDirectiveState (h : s.Seated seat) (id : LineId) (state : DirectiveState)
    (hstate : ∀ x ∈ state.nested, Enterable x.1 (seat id) ∧ s.SitAt seat x.2 (enter x.1 (seat id))) :
    (s.setDirectiveState id state).Seated seat := by
  refine h.attach id fun x hx => ?_
  unfold Line.modifyCommand at hx
  split at hx
  · exact .inr (hstate x hx)
  · exact .inl hx

theorem setExpansion (h : s.Seated seat) (id : LineId) (expansion : Line.Expansion)
    (hcalls : (seat id).1 < expansionLimit) (hsit : s.SitAt seat expansion.items (enter none (seat id))) :
    (s.setExpansion id expansion).Seated seat := by
  refine h.attach id fun x hx => ?_
  split at hx
  · rw [List.mem_singleton.mp hx]
    exact .inr ⟨hcalls, hsit⟩
  · exact .inl hx

theorem arrange (h : s.Seated seat) (hgains : Gains True True s s' ids scope) (hlines : s''.lines = s'.lines)
    (hunits : s''.units = s'.units) (hkept : s''.Kept .scopes) (place : Nat × List Path) :
    ∃ seat', s.Agree seat seat' ∧ (s''.arrange ids).2.Seated seat' ∧
      (s''.arrange ids).2.SitAt seat' (s''.arrange ids).1 place := by
  obtain ⟨seat', hagree, hseated, hplace⟩ := h.gain hgains place
  have harrange := (hkept.arrange ids nofun).1
  refine ⟨seat', hagree, (hseated.congr hlines hunits).tend harrange, fun id hid => ?_⟩
  have hmem := (arrange_proper s'' (hgains.nodup trivial trivial)).1.subset hid
  rw [harrange.tends.size, hlines]
  exact ⟨(hgains.fresh trivial trivial id hmem).2.1, hplace id hmem⟩

end Seated

/-! ## Confined work -/

/-- Work that keeps within the limits and leaves the nesting and the seats of lines as they are. New lines get seats. -/
structure Confined (seat : LineId → Nat × List Path) (s s' : Assembly) : Prop where
  analyses : Analyses .scopes s s'
  seated : ∃ seat', s.Agree seat seat' ∧ s'.Seated seat'

namespace Confined

theorem after (h : Confined seat' s' s'') (hanalyses : Analyses .scopes s s') (hagree : s.Agree seat seat') :
    Confined seat s s'' := by
  obtain ⟨seat'', hagree', hseated⟩ := h.seated
  exact ⟨hanalyses.trans h.analyses, seat'', hagree.trans hanalyses.carries.size hagree', hseated⟩

theorem andThen (h : Confined seat s s')
    (hnext : ∀ seat', s.Agree seat seat' → s'.Seated seat' → Confined seat' s' s'') : Confined seat s s'' := by
  obtain ⟨seat', hagree, hseated⟩ := h.seated
  exact (hnext seat' hagree hseated).after h.analyses hagree

theorem size_le (h : Confined seat s s') : s.lines.size ≤ s'.lines.size := h.analyses.carries.size

end Confined

theorem Proceeds.confined (h : Proceeds .scopes s s') (hseated : s.Seated seat) : Confined seat s s' :=
  ⟨h.analyses, seat, fun _ _ => rfl, hseated.tend h⟩

/-! ## Lines at hand -/

/-- Whether a line stands as many calls deep as the work is. -/
def Leveled (seat : LineId → Nat × List Path) (s : Assembly) (id : LineId) : Prop :=
  id < s.lines.size ∧ (seat id).1 = s.depth

/-- Whether a line can be declared: it stands where the work is, or in a call, where nothing is included. -/
def AtHand (seat : LineId → Nat × List Path) (s : Assembly) (id : LineId) : Prop :=
  Leveled seat s id ∧ ((seat id).2 = s.includeStack ∨ s.CalledIn id)

theorem Leveled.carry (h : Leveled seat s id) (hc : Carries True True s s') (hagree : s.Agree seat seat') :
    Leveled seat' s' id := by
  obtain ⟨hlt, hlevel⟩ := h
  refine ⟨Nat.lt_of_lt_of_le hlt hc.size, ?_⟩
  rw [hagree id hlt, hc.depth, hlevel]

theorem CalledIn.carry (h : s.CalledIn id) (hlt : id < s.lines.size) (hs : s.Kept .scopes)
    (hc : Carries True True s s') : s'.CalledIn id := by
  unfold CalledIn
  rw [hc.scope trivial trivial id hlt, (hc.symbols trivial).kind _ (hs.inUse id trivial)]
  exact h

theorem AtHand.carry (h : AtHand seat s id) (hs : s.Kept .scopes) (hc : Carries True True s s')
    (hagree : s.Agree seat seat') : AtHand seat' s' id := by
  obtain ⟨hlevel, hplace⟩ := h
  refine ⟨hlevel.carry hc hagree, ?_⟩
  rw [hagree id hlevel.1, hc.includeStack]
  exact hplace.imp_right fun hcalled => hcalled.carry hlevel.1 hs hc

theorem SitAt.leveled (h : s.SitAt seat items (s.depth, s.includeStack)) : ∀ item ∈ items, Leveled seat s item.id := by
  intro item hitem
  obtain ⟨hlt, hseat⟩ := h item.id (Item.mem_allLines.mpr ⟨item, hitem, item.id_mem_lines⟩)
  exact ⟨hlt, by rw [hseat]⟩

theorem SitAt.atHand (h : s.SitAt seat items (s.depth, s.includeStack)) : ∀ item ∈ items, AtHand seat s item.id := by
  intro item hitem
  obtain ⟨-, hseat⟩ := h item.id (Item.mem_allLines.mpr ⟨item, hitem, item.id_mem_lines⟩)
  exact ⟨h.leveled item hitem, .inl (by rw [hseat])⟩

/-- One item after the other is worked on, until the work is told to stop. What the work asks of a line stays true of
those that come later. -/
theorem confined_unlessStopped {f : Assembly → Item → Assembly}
    (asks : (LineId → Nat × List Path) → Assembly → LineId → Prop)
    (hcarry : ∀ {seat seat' s s' id}, asks seat s id → s.Kept .scopes → Carries True True s s' →
      s.Agree seat seat' → asks seat' s' id)
    (hf : ∀ seat s item, s.Kept .scopes → s.Seated seat → asks seat s item.id → Confined seat s (f s item))
    (hs : s.Kept .scopes) (hseated : s.Seated seat) (hitems : ∀ item ∈ items, asks seat s item.id) :
    Confined seat s (items.foldl (fun s item => if s.stopped then s else f s item) s) := by
  induction items generalizing s seat with
  | nil => exact hs.refl.confined hseated
  | cons item items ih =>
    obtain ⟨hitem, hrest⟩ := List.forall_mem_cons.mp hitems
    have hstep : Confined seat s (if s.stopped then s else f s item) := by
      split
      · exact hs.refl.confined hseated
      · exact hf seat s item hs hseated hitem
    have hcarries := hstep.analyses.carries
    refine hstep.andThen fun seat' hagree hseated' => ih hcarries.orderly.kept hseated' fun other hother => ?_
    exact hcarry (hrest other hother) hs hcarries hagree

/-! ## Analysis -/

/-- Whether a way to work on items is confined, if it is given what it asks for. -/
def Confining (asks : (LineId → Nat × List Path) → Assembly → LineId → Prop) (f : Assembly → List Item → Assembly) :
    Prop :=
  ∀ seat s items, s.Kept .scopes → s.Seated seat → (∀ item ∈ items, asks seat s item.id) → Confined seat s (f s items)

/-- New lines are arranged, and analysed where they stand. -/
theorem Seated.analyze {f : Assembly → List Item → Assembly} (hf : Confining AtHand f) (h : s.Seated seat)
    (hgains : Gains True True s s' ids scope) (hlines : s''.lines = s'.lines) (hunits : s''.units = s'.units)
    (hkept : s''.Kept .scopes) (place : Nat × List Path)
    (hitems : ∀ seat', (s''.arrange ids).2.SitAt seat' (s''.arrange ids).1 place →
      ∀ item ∈ (s''.arrange ids).1, AtHand seat' (s''.arrange ids).2 item.id) :
    ∃ seat', s.Agree seat seat' ∧ (f (s''.arrange ids).2 (s''.arrange ids).1).Seated seat' ∧
      (f (s''.arrange ids).2 (s''.arrange ids).1).SitAt seat' (s''.arrange ids).1 place := by
  obtain ⟨seat₁, hagree, hseated₁, hsit⟩ := h.arrange hgains hlines hunits hkept place
  have harrange := (hkept.arrange ids nofun).1
  have hinner := hf seat₁ _ _ harrange.kept hseated₁ (hitems seat₁ hsit)
  obtain ⟨seat₂, hagree₂, hseated₂⟩ := hinner.seated
  have hsize : s.lines.size ≤ (s''.arrange ids).2.lines.size := by
    rw [harrange.tends.size, hlines]
    exact hgains.carries.size
  exact ⟨seat₂, hagree.trans hsize hagree₂, hseated₂, hsit.carry hinner.size_le hagree₂⟩

theorem confined_includeText {declare : Assembly → List Item → Assembly} (hdeclare : Confining AtHand declare)
    (hanalytic : Analytic .scopes declare) (hs : s.Kept .scopes) (hseated : s.Seated seat)
    (hid : id < s.lines.size) (hseat : seat id = (s.depth, s.includeStack)) {path : Path}
    (hpath : Includable path s.includeStack) (text : String) :
    Confined seat s (includeText declare s id path text) := by
  refine ⟨analyses_includeText hanalytic hs id hpath text, ?_⟩
  obtain ⟨u, ids, scope, hgains, -, heq⟩ := hs.includeText_spec declare id path text
  have hopen := hgains.carries.orderly.kept.openFile path
  have harrange := (hopen.arrange ids nofun).1
  -- the lines stand where they are declared
  have hplace : (((u.openFile path).arrange ids).2.depth, ((u.openFile path).arrange ids).2.includeStack) =
      (s.depth, path :: s.includeStack) := by
    rw [harrange.tends.depth, harrange.tends.includeStack]
    exact congrArg₂ (fun depth stack => (depth, path :: stack)) hgains.carries.depth hgains.carries.includeStack
  obtain ⟨seat', hagree, hseated', hsit⟩ := hseated.analyze hdeclare hgains
    (rfl : (u.openFile path).lines = u.lines) rfl hopen (s.depth, path :: s.includeStack)
    fun _ hsit => SitAt.atHand (by rwa [hplace])
  rw [heq]
  have hclosed : (declare _ ((u.openFile path).arrange ids).1).closeFile.Seated seat' := hseated'.congr rfl rfl
  refine ⟨seat', hagree, hclosed.setDirectiveState id _ (List.forall_mem_singleton.mpr ?_)⟩
  rw [hagree id hid, hseat]
  exact ⟨hpath, hsit⟩

theorem confined_declareWithin (b : Budget) : Confining AtHand (declareWithin b) := by
  induction b with
  | spent => exact fun seat s items hs hseated _ => hs.refl.confined hseated
  | left calls files _ ih =>
    intro seat s items hs hseated hitems
    unfold declareWithin
    refine confined_unlessStopped AtHand AtHand.carry (fun seat s item hs hseated hitem => ?_) hs hseated hitems
    rcases hs.declareLine_cases (declareWithin files) item.id with hinPlace | ⟨s₁, path, text, hs₁, hpath, hnot, heq⟩
    · exact hinPlace.confined hseated
    rw [heq]
    obtain ⟨⟨hlt, hlevel⟩, hplace⟩ := hitem.carry hs hs₁.advances.carries fun _ _ => rfl
    have hstack := hplace.resolve_right fun hcalled => hnot trivial (by
      rw [CalledIn, hs₁.tends.scope, (hs₁.tends.symbols trivial).kind] at hcalled
      exact hcalled)
    refine (hs₁.confined hseated).andThen fun seat' hagree hseated' => ?_
    have hlt' : item.id < s.lines.size := hs₁.tends.size ▸ hlt
    refine confined_includeText ih (analyses_declareWithin files) hs₁.kept hseated' hlt ?_ hpath text
    rw [hagree item.id hlt', ← hlevel, ← hstack]

theorem confined_expand {settle : Assembly → List Item → Assembly} (hsettle : Confining AtHand settle)
    (hanalytic : Analytic .scopes settle) (hs : s.Kept .scopes) (hseated : s.Seated seat)
    (hid : Leveled seat s id) (name : Token) (count : Nat) : Confined seat s (expand settle s id name count) := by
  refine ⟨analyses_expand hanalytic hs id name nofun count, ?_⟩
  rcases hs.expand_spec settle id name nofun count with
    ⟨scope, hgains, -⟩ | ⟨u, ids, scope, parameters, hgains, -, hroom, hscope, heq⟩
  · obtain ⟨seat', hagree, hseated', -⟩ := hseated.gain hgains (0, [])
    exact ⟨seat', hagree, hseated'⟩
  have hopen := hgains.carries.orderly.kept.openCall
  have harrange := (hopen.arrange ids nofun).1
  have hmade := arrange_proper u.openCall (hgains.nodup trivial trivial)
  have hdepth : (u.openCall.arrange ids).2.depth = s.depth + 1 :=
    harrange.tends.depth.trans (congrArg (· + 1) hgains.carries.depth)
  -- the lines are in the scope of the call, so that no file is included among them
  obtain ⟨seat', hagree, hseated', hsit⟩ := hseated.analyze hsettle hgains (rfl : u.openCall.lines = u.lines) rfl
    hopen (enter none (seat id)) fun _ hsit item hitem => by
      have hmem := Item.mem_allLines.mpr ⟨item, hitem, item.id_mem_lines⟩
      obtain ⟨hlt, hseat⟩ := hsit item.id hmem
      refine ⟨⟨hlt, ?_⟩, .inr ?_⟩
      · rw [hseat, hdepth, ← hid.2]
        rfl
      · rw [CalledIn, harrange.tends.scope, (harrange.tends.symbols trivial).kind]
        have hin : (u.line item.id).scope = scope := (hgains.fresh trivial trivial item.id (hmade.1.subset hmem)).2.2
        exact (congrArg (fun scope => (u.symbols.scope scope).kind) hin).trans (hscope trivial).2
  rw [heq]
  have hclosed : (settle _ (u.openCall.arrange ids).1).closeCall.Seated seat' := hseated'.congr rfl rfl
  refine ⟨seat', hagree, hclosed.setExpansion id _ ?_ ?_⟩
  · rw [hagree id hid.1, hid.2, ← hgains.carries.depth]
    exact hroom
  · rw [hagree id hid.1]
    exact hsit

theorem confined_resolveWithin (b : Budget) : Confining Leveled (resolveWithin b) := by
  induction b with
  | spent => exact fun seat s items hs hseated _ => hs.refl.confined hseated
  | left calls files ihcalls ihfiles =>
    intro seat s items hs hseated hitems
    unfold resolveWithin
    have hsettle : Confining AtHand fun s items => resolveWithin calls (declareWithin calls s items) items := by
      intro seat s items hs hseated hitems
      have hdeclare := confined_declareWithin calls seat s items hs hseated hitems
      refine hdeclare.andThen fun seat' hagree hseated' => ?_
      refine ihcalls seat' _ items hdeclare.analyses.kept hseated' fun item hitem => ?_
      exact (hitems item hitem).1.carry hdeclare.analyses.carries hagree
    have hanalytic := (analyses_resolveWithin calls).settle (r := .scopes) calls
    refine confined_unlessStopped Leveled (fun hlevel _ => hlevel.carry) (fun seat s item hs hseated hitem => ?_) hs hseated
      hitems
    rcases hs.resolveLine_cases _ (resolveWithin files) item.id with hinPlace | ⟨path, inner, hinner, heq⟩ |
      ⟨s₁, name, count, hs₁, -, heq⟩
    · exact hinPlace.confined hseated
    · -- an included file is no further call
      rw [heq]
      refine ihfiles seat s inner hs hseated fun other hother => ?_
      obtain ⟨hlt, hseat⟩ := (hseated.nested item.id _ hinner).2 other.id
        (Item.mem_allLines.mpr ⟨other, hother, other.id_mem_lines⟩)
      refine ⟨hlt, ?_⟩
      rw [hseat, ← hitem.2]
      rfl
    · rw [heq]
      refine (hs₁.confined hseated).andThen fun seat' hagree hseated' => ?_
      exact confined_expand hsettle hanalytic hs₁.kept hseated' (hitem.carry hs₁.advances.carries hagree) name count

theorem confined_analyze : Confining AtHand analyze := by
  intro seat s items hs hseated hitems
  have hdeclare := confined_declareWithin .full seat s items hs hseated hitems
  have hdeclared := hdeclare.analyses.carries
  have hresolve : Confined seat s ((s.declare items).resolve items) :=
    hdeclare.andThen fun seat' hagree hseated' =>
      confined_resolveWithin .full seat' _ items hdeclared.orderly.kept hseated' fun item hitem =>
        (hitems item hitem).1.carry hdeclared hagree
  have hparse := Kept.parseWithin .full _ items hresolve.analyses.kept
  exact hresolve.andThen fun seat' _ hseated' => hparse.confined hseated'

/-! ## Compiling -/

namespace Confined

theorem insideCall (h : Confined seat s.openCall s') (hroom : s.depth < expansionLimit) : Confined seat s s'.closeCall := by
  obtain ⟨seat', hagree, hseated⟩ := h.seated
  exact ⟨h.analyses.insideCall hroom, seat', hagree, hseated.congr rfl rfl⟩

theorem insideFile {path : Path} (h : Confined seat (s.openFile path) s') (hpath : Includable path s.includeStack) :
    Confined seat s s'.closeFile := by
  obtain ⟨seat', hagree, hseated⟩ := h.seated
  exact ⟨h.analyses.insideFile hpath, seat', hagree, hseated.congr rfl rfl⟩

end Confined

/-- Whether a way to compile items is confined, where the items stand where the work is. -/
def Compiling (f : Assembly → List Item → Flow × Assembly) : Prop :=
  ∀ seat s items, s.Kept .scopes → s.Seated seat → s.SitAt seat items (s.depth, s.includeStack) →
    Confined seat s (f s items).2

theorem SitAt.append {items' : List Item} :
    s.SitAt seat (items ++ items') place ↔ s.SitAt seat items place ∧ s.SitAt seat items' place := by
  unfold SitAt
  rw [Item.allLines_append, List.forall_mem_append]

theorem SitAt.flatten {lists : List (List Item)} :
    s.SitAt seat lists.flatten place ↔ ∀ items ∈ lists, s.SitAt seat items place := by
  induction lists with
  | nil => exact ⟨fun _ _ hmem => absurd hmem List.not_mem_nil, fun _ _ hmem => absurd hmem List.not_mem_nil⟩
  | cons items lists ih => rw [List.flatten_cons, SitAt.append, ih, List.forall_mem_cons]

theorem confined_compileIterations {inner : Assembly → List Item → Flow × Assembly} (hinner : Compiling inner)
    (hs : s.Kept .scopes) (hseated : s.Seated seat) (iterations : List (List Item))
    (hsit : s.SitAt seat iterations.flatten (s.depth, s.includeStack)) :
    Confined seat s (compileIterations inner s iterations) := by
  induction iterations generalizing s seat with
  | nil => exact hs.refl.confined hseated
  | cons items rest ih =>
    rw [List.flatten_cons, SitAt.append] at hsit
    have hfirst := hinner seat s items hs hseated hsit.1
    unfold compileIterations
    generalize inner s items = result at hfirst ⊢
    obtain ⟨flow, s₁⟩ := result
    have hcarries := hfirst.analyses.carries
    cases flow with
    | halt => exact hfirst
    | next =>
      refine hfirst.andThen fun seat' hagree hseated' => ih hcarries.orderly.kept hseated' ?_
      rw [hcarries.depth, hcarries.includeStack]
      exact hsit.2.carry hcarries.size hagree

theorem confined_addIteration (hs : s.Kept .scopes) (hseated : s.Seated seat) {parent : ScopeId}
    (hparent : s.symbols.InUse parent) (body : List LineId) :
    ∃ seat', s.Agree seat seat' ∧ (s.addIteration parent body).2.Seated seat' ∧
      (s.addIteration parent body).2.SitAt seat' (s.addIteration parent body).1 (s.depth, s.includeStack) := by
  obtain ⟨u, ids, scope, hgains, -, heq⟩ := hs.addIteration_spec (fun _ => hparent) body nofun
  have hkept := hgains.carries.orderly.kept
  have harrange := (hkept.arrange ids nofun).1
  have hplace : ((u.arrange ids).2.depth, (u.arrange ids).2.includeStack) = (s.depth, s.includeStack) := by
    rw [harrange.tends.depth, harrange.tends.includeStack, hgains.carries.depth, hgains.carries.includeStack]
  rw [heq]
  exact hseated.analyze confined_analyze hgains rfl rfl hkept (s.depth, s.includeStack)
    fun _ hsit => SitAt.atHand (by rwa [hplace])

theorem confined_addIterations (hs : s.Kept .scopes) (hseated : s.Seated seat) {parent : ScopeId}
    (hparent : s.symbols.InUse parent) (body : List LineId) (count : Nat) :
    ∃ seat', s.Agree seat seat' ∧ (s.addIterations parent body count).2.Seated seat' ∧
      ∀ items ∈ (s.addIterations parent body count).1,
        (s.addIterations parent body count).2.SitAt seat' items (s.depth, s.includeStack) := by
  induction count with
  | zero => exact ⟨seat, fun _ _ => rfl, hseated, fun _ hmem => absurd hmem List.not_mem_nil⟩
  | succ count ih =>
    obtain ⟨seat₁, hagree, hseated₁, hsit⟩ := ih
    have hcarries := (hs.addIterations (fun _ => hparent) body nofun count).carries
    have hparent' := (hcarries.symbols trivial).inUse parent hparent
    have hmore := hcarries.orderly.kept.addIteration (fun _ => hparent') body nofun
    obtain ⟨seat₂, hagree₂, hseated₂, hlast⟩ := confined_addIteration hcarries.orderly.kept hseated₁ hparent' body
    rw [hcarries.depth, hcarries.includeStack] at hlast
    rw [addIterations_succ]
    refine ⟨seat₂, hagree.trans hcarries.size hagree₂, hseated₂, List.forall_mem_cons.mpr ⟨hlast, fun items hitems => ?_⟩⟩
    exact (hsit items hitems).carry hmore.carries.size hagree₂

theorem seated_iterate (hs : s.Kept .scopes) (hseated : s.Seated seat) (id : LineId) (part : Line.CommandPart)
    (count : Nat) : ∃ seat', s.Agree seat seat' ∧ (s.iterate id part count).2.Seated seat' ∧
      (s.iterate id part count).2.SitAt seat' (s.iterate id part count).1.flatten (enter none (s.depth, s.includeStack)) := by
  have hopened : s.openCall.Seated seat := hseated.congr rfl rfl
  obtain ⟨seat', hagree, hseated', hsit⟩ := confined_addIterations hs.openCall hopened (hs.inUse id trivial)
    (part.body.getD []) count
  rw [iterate_eq]
  refine ⟨seat', hagree, hseated'.congr rfl rfl, SitAt.flatten.mpr fun items hitems => ?_⟩
  exact hsit items (List.mem_reverse.mp hitems)

theorem confined_repetition (hs : s.Kept .scopes) (hseated : s.Seated seat) (hid : id < s.lines.size)
    (hseat : seat id = (s.depth, s.includeStack)) (part : Line.CommandPart) (count : Nat)
    (hroom : s.depth < expansionLimit) {kept : Assembly}
    (hkept : kept = (s.iterate id part count).2.setDirectiveState id (.repeated (some (s.iterate id part count).1))) :
    Analyses .scopes s kept ∧ ∃ seat', s.Agree seat seat' ∧ kept.Seated seat' ∧
      kept.SitAt seat' (s.iterate id part count).1.flatten (enter none (s.depth, s.includeStack)) := by
  have hiterate := hs.iterate id part nofun count hroom
  obtain ⟨seat', hagree, hseated', hsit⟩ := seated_iterate hs hseated id part count
  have hkeep := hiterate.kept.keepLines id (.repeated (some (s.iterate id part count).1)) nofun rfl
  subst hkept
  refine ⟨hiterate.trans hkeep, seat', hagree, hseated'.setDirectiveState id _ ?_, hsit.carry hkeep.carries.size fun _ _ => rfl⟩
  intro x hx
  rw [List.mem_singleton.mp hx, hagree id hid, hseat]
  exact ⟨hroom, hsit⟩

theorem confined_inCall {calls : Assembly → List Item → Flow × Assembly} (hcalls : Compiling calls)
    (hs : s.Kept .scopes) (hseated : s.Seated seat) (hroom : s.depth < expansionLimit) {iterations : List (List Item)}
    (hsit : s.SitAt seat iterations.flatten (enter none (s.depth, s.includeStack))) :
    Confined seat s (compileIterations calls s.openCall iterations).closeCall := by
  have hopened : s.openCall.Seated seat := hseated.congr rfl rfl
  exact (confined_compileIterations hcalls hs.openCall hopened iterations hsit).insideCall hroom

/-- Lines below a line are compiled where they stand. -/
theorem Deeper.confined {calls files : Assembly → List Item → Flow × Assembly}
    (hdeeper : Deeper .scopes calls files s id s') (hcalls : Compiling calls) (hfiles : Compiling files)
    (hseated : s.Seated seat) (hid : id < s.lines.size) (hseat : seat id = (s.depth, s.includeStack)) :
    Confined seat s s' := by
  have hbelow : ∀ {s₁ x}, Proceeds .scopes s s₁ → x ∈ (s.line id).nested →
      Enterable x.1 (s₁.depth, s₁.includeStack) ∧ s₁.SitAt seat x.2 (enter x.1 (s₁.depth, s₁.includeStack)) := by
    intro s₁ x proceeds below
    obtain ⟨henter, hsit⟩ := hseated.nested id x below
    rw [proceeds.tends.depth, proceeds.tends.includeStack, ← hseat]
    exact ⟨henter, hsit.carry (Nat.le_of_eq proceeds.tends.size.symm) fun _ _ => rfl⟩
  cases hdeeper with
  | iterations proceeds below =>
    obtain ⟨hroom, hsit⟩ := hbelow proceeds below
    exact (confined_inCall hcalls proceeds.kept (hseated.tend proceeds) hroom hsit).after proceeds.analyses fun _ _ => rfl
  | @repetition s₁ part count proceeds placed room =>
    have hseat' : seat id = (s₁.depth, s₁.includeStack) := by
      rw [hseat, proceeds.tends.depth, proceeds.tends.includeStack]
    obtain ⟨hanalyses, seat', hagree, hseated', hsit⟩ := confined_repetition proceeds.kept (hseated.tend proceeds)
      (proceeds.tends.size.symm ▸ hid) hseat' part count room rfl
    have hkept := hanalyses.carries
    rw [← hkept.depth, ← hkept.includeStack] at hsit
    have hcompile := confined_inCall hcalls hkept.orderly.kept hseated' (hkept.depth.symm ▸ room) hsit
    exact (hcompile.after hanalyses hagree).after proceeds.analyses fun _ _ => rfl
  | @file s₁ path items proceeds below =>
    obtain ⟨hpath, hsit⟩ := hbelow proceeds below
    have hopened : (s₁.openFile path).Seated seat := (hseated.tend proceeds).congr rfl rfl
    have hcompile := (hfiles seat _ items (proceeds.kept.openFile path) hopened hsit).insideFile hpath
    exact hcompile.after proceeds.analyses fun _ _ => rfl

section

variable {calls files : Assembly → List Item → Flow × Assembly}

theorem SitAt.later (h : s.SitAt seat items (s.depth, s.includeStack)) (hc : Carries True True s s')
    (hagree : s.Agree seat seat') : s'.SitAt seat' items (s'.depth, s'.includeStack) := by
  rw [hc.depth, hc.includeStack]
  exact h.carry hc.size hagree

theorem SitAt.branch {branches : List (LineId × List Item)} {place : Nat × List Path}
    (h : s.SitAt seat [.conditional id branches] place) {b : LineId × List Item} (hb : b ∈ branches) :
    s.SitAt seat b.2 place := by
  intro j hj
  refine h j ?_
  rw [Item.allLines_singleton, Item.lines]
  exact List.mem_cons_of_mem id (Item.mem_branchLines.mpr ⟨b, hb, Item.mem_bodyLines.mpr (.inr hj)⟩)

theorem confined_switchBranch (hs : s.Kept .scopes) (hseated : s.Seated seat) (id : LineId)
    (branches : List (LineId × List Item)) (hsit : ∀ b ∈ branches, s.SitAt seat b.2 (s.depth, s.includeStack)) :
    Confined seat s (s.switchBranch id branches).2 := by
  rcases hs.switchBranch_cases (fun h => h) id branches with hinPlace | ⟨u, v, body, hu, hbody, -, hv, hafter⟩
  · exact hinPlace.confined hseated
  have hat : ∀ item ∈ body, AtHand seat u item.id := by
    intro item hitem
    obtain ⟨b, hb, hin⟩ := hbody item hitem
    exact ((hsit b hb).later hu.advances.carries fun _ _ => rfl).atHand item hin
  have hanalyze := confined_analyze seat u body hu.kept (hseated.tend hu) hat
  have hrest := hv.trans hafter
  refine Confined.after ?_ hu.analyses fun _ _ => rfl
  exact hanalyze.andThen fun seat' _ hseated' => hrest.confined hseated'

mutual

theorem confined_compileItem (hcalls : Compiling calls) (hfiles : Compiling files) :
    ∀ (item : Item) (seat : LineId → Nat × List Path) (s : Assembly), s.Kept .scopes → s.Seated seat →
      s.SitAt seat [item] (s.depth, s.includeStack) → Confined seat s (compileItem calls files item s).2
  | .line id, seat, s, hs, hseated, hsit => by
    obtain ⟨hid, hseat⟩ := hsit id (by simp [Item.allLines, Item.lines])
    rcases hs.compileLine_cases (fun h => h) id with hinPlace | hdeeper
    · exact hinPlace.confined hseated
    · exact hdeeper.confined hcalls hfiles hseated hid hseat
  | .conditional id branches, seat, s, hs, hseated, hsit => by
    unfold compileItem
    split
    · exact hs.refl.confined hseated
    have henter := hs.enterLine (fun h => h) id
    have hentered := hseated.tend henter
    have hsit' := hsit.later henter.advances.carries fun _ _ => rfl
    have hswitch := (confined_switchBranch henter.kept hentered id branches fun b hb => hsit'.branch hb).after
      henter.analyses fun _ _ => rfl
    have hcarries := hswitch.analyses.carries
    split
    · rename_i s₁ heq
      rw [heq] at hswitch
      exact hswitch
    · rename_i index s₁ heq
      rw [heq] at hswitch hcarries
      refine hswitch.andThen fun seat' hagree hseated' => ?_
      exact confined_compileBranch hcalls hfiles branches index seat' s₁ hcarries.orderly.kept hseated' fun b hb =>
        (hsit.branch hb).later hcarries hagree

theorem confined_compileItems (hcalls : Compiling calls) (hfiles : Compiling files) :
    ∀ (items : List Item) (seat : LineId → Nat × List Path) (s : Assembly), s.Kept .scopes → s.Seated seat →
      s.SitAt seat items (s.depth, s.includeStack) → Confined seat s (compileItems calls files items s).2
  | [], _, _, hs, hseated, _ => hs.refl.confined hseated
  | item :: items, seat, s, hs, hseated, hsit => by
    obtain ⟨hitem, hrest⟩ := SitAt.append.mp (List.singleton_append ▸ hsit : s.SitAt seat ([item] ++ items) _)
    have hfirst := confined_compileItem hcalls hfiles item seat s hs hseated hitem
    have hcarries := hfirst.analyses.carries
    unfold compileItems
    split
    · exact hs.refl.confined hseated
    split
    · rename_i s₁ heq
      rw [heq] at hfirst
      exact hfirst
    · rename_i s₁ heq
      rw [heq] at hfirst hcarries
      refine hfirst.andThen fun seat' hagree hseated' => ?_
      exact confined_compileItems hcalls hfiles items seat' s₁ hcarries.orderly.kept hseated' (hrest.later hcarries hagree)

theorem confined_compileBranch (hcalls : Compiling calls) (hfiles : Compiling files) :
    ∀ (branches : List (LineId × List Item)) (index : Nat) (seat : LineId → Nat × List Path) (s : Assembly),
      s.Kept .scopes → s.Seated seat → (∀ b ∈ branches, s.SitAt seat b.2 (s.depth, s.includeStack)) →
        Confined seat s (compileBranch calls files index branches s).2
  | [], _, _, _, hs, hseated, _ => hs.refl.confined hseated
  | branch :: _, 0, seat, s, hs, hseated, hsit =>
    confined_compileBody hcalls hfiles branch seat s hs hseated (hsit branch List.mem_cons_self)
  | _ :: branches, index + 1, seat, s, hs, hseated, hsit =>
    confined_compileBranch hcalls hfiles branches index seat s hs hseated fun b hb => hsit b (List.mem_cons_of_mem _ hb)

theorem confined_compileBody (hcalls : Compiling calls) (hfiles : Compiling files) :
    ∀ (branch : LineId × List Item) (seat : LineId → Nat × List Path) (s : Assembly), s.Kept .scopes →
      s.Seated seat → s.SitAt seat branch.2 (s.depth, s.includeStack) →
        Confined seat s (compileBody calls files branch s).2
  | (_, body), seat, s, hs, hseated, hsit => confined_compileItems hcalls hfiles body seat s hs hseated hsit

end

end

theorem confined_compileWithin (b : Budget) : Compiling (compileWithin b) := by
  induction b with
  | spent => exact fun seat s _ hs hseated _ => hs.refl.confined hseated
  | left calls files ihcalls ihfiles =>
    exact fun seat s items hs hseated hsit => confined_compileItems ihcalls ihfiles items seat s hs hseated hsit

end CrossAssembler.Assembly
