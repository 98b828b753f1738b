import CrossAssembler.Proofs.Assembly.Arrangement
import CrossAssembler.Proofs.Assembly.Nesting

/-!
# What arranging keeps of the lines

Lines that are put into their block structure can be read back from it: each line, the lines of its block
and the line that ends it. This gives the lines as they were, but for dividers that no conditional can take.

Principal result: `arrange_accounts` — arranging loses, doubles and reorders nothing.
-/

namespace CrossAssembler

/-- Whether nothing has been done with a line. -/
def Line.IsFresh (l : Line) : Prop :=
  l.state = .unresolved ∧ ∀ part ∈ l.command?, part.body = none ∧ part.closer = none

instance (l : Line) : Decidable l.IsFresh := inferInstanceAs (Decidable (_ ∧ _))

namespace Assembly

variable {s s' s'' : Assembly}
variable {ids ids' : List LineId} {j id : LineId} {branches : List (LineId × List LineId)}
variable {results : List (LineId × List Item)}

/-- The directives of the lines. -/
def directives (s : Assembly) (id : LineId) : Option Directive := (s.line id).directive?

/-- The line that ends the block of a line. -/
def closer? (s : Assembly) (id : LineId) : Option LineId := (s.line id).command?.bind fun part => part.closer

/-- The lines of the block of a line, where they are kept as they are. -/
def blockLines (s : Assembly) (id : LineId) : List LineId :=
  ((s.line id).command?.bind fun part => part.body).getD []

mutual

/-- The lines of an item as they were written: its own, those of its block or its branches, and the one that
ends it. -/
def readItem (s : Assembly) : Item → List LineId
  | .line id => id :: (s.blockLines id ++ (s.closer? id).toList)
  | .conditional id branches => id :: (s.readBranches id branches ++ (s.closer? id).toList)
termination_by structural item => item

/-- The lines of items as they were written. -/
def readBack (s : Assembly) : List Item → List LineId
  | [] => []
  | item :: items => s.readItem item ++ s.readBack items
termination_by structural items => items

/-- The lines of the branches of a conditional, but for its own. -/
def readBranches (s : Assembly) (id : LineId) : List (LineId × List Item) → List LineId
  | [] => []
  | branch :: branches => s.readBranch id branch ++ s.readBranches id branches
termination_by structural branches => branches

/-- The lines of a branch of a conditional, but for the line of the conditional. -/
def readBranch (s : Assembly) (id : LineId) : LineId × List Item → List LineId
  | (header, body) => (if header = id then [] else [header]) ++ s.readBack body
termination_by structural branch => branch

end

theorem readBack_append (s : Assembly) (items items' : List Item) :
    s.readBack (items ++ items') = s.readBack items ++ s.readBack items' := by
  induction items with
  | nil => rfl
  | cons item items ih => rw [List.cons_append, readBack, readBack, ih, List.append_assoc]

theorem readBack_singleton (s : Assembly) (item : Item) : s.readBack [item] = s.readItem item := by
  rw [readBack, readBack, List.append_nil]

mutual

theorem lines_subset_readItem (s : Assembly) : ∀ item, ∀ j ∈ Item.lines item, j ∈ s.readItem item
  | .line id, j, hj => by
    rw [Item.lines, List.mem_singleton] at hj
    rw [readItem, hj]
    exact List.mem_cons_self
  | .conditional id branches, j, hj => by
    rw [Item.lines] at hj
    rw [readItem]
    rcases List.mem_cons.mp hj with rfl | hj
    · exact List.mem_cons_self
    · exact List.mem_cons_of_mem _ (List.mem_append_left _ (lines_subset_readBranches s id branches j hj))

theorem lines_subset_readBack (s : Assembly) : ∀ items, ∀ j ∈ Item.allLines items, j ∈ s.readBack items
  | [], j, hj => hj
  | item :: items, j, hj => by
    rw [Item.allLines] at hj
    rw [readBack]
    rcases List.mem_append.mp hj with hj | hj
    · exact List.mem_append_left _ (lines_subset_readItem s item j hj)
    · exact List.mem_append_right _ (lines_subset_readBack s items j hj)

theorem lines_subset_readBranches (s : Assembly) (id : LineId) :
    ∀ branches, ∀ j ∈ Item.branchLines id branches, j ∈ s.readBranches id branches
  | [], j, hj => hj
  | branch :: branches, j, hj => by
    rw [Item.branchLines] at hj
    rw [readBranches]
    rcases List.mem_append.mp hj with hj | hj
    · exact List.mem_append_left _ (lines_subset_readBranch s id branch j hj)
    · exact List.mem_append_right _ (lines_subset_readBranches s id branches j hj)

theorem lines_subset_readBranch (s : Assembly) (id : LineId) :
    ∀ branch, ∀ j ∈ Item.bodyLines id branch, j ∈ s.readBranch id branch
  | (header, body), j, hj => by
    rw [Item.bodyLines] at hj
    rw [readBranch]
    rcases List.mem_append.mp hj with hj | hj
    · exact List.mem_append_left _ hj
    · exact List.mem_append_right _ (lines_subset_readBack s body j hj)

end

/-- What is read back hangs on the lines of the items alone. -/
structure SameBlocks (s s' : Assembly) (ids : List LineId) : Prop where
  body : ∀ id ∈ ids, s'.blockLines id = s.blockLines id
  closer : ∀ id ∈ ids, s'.closer? id = s.closer? id

theorem SameBlocks.mono (h : SameBlocks s s' ids) (hsub : ∀ j ∈ ids', j ∈ ids) :
    SameBlocks s s' ids' := ⟨fun j hj => h.body j (hsub j hj), fun j hj => h.closer j (hsub j hj)⟩

theorem SameBlocks.left (h : SameBlocks s s' (ids ++ ids')) : SameBlocks s s' ids :=
  h.mono fun _ => List.mem_append_left _

theorem SameBlocks.right (h : SameBlocks s s' (ids ++ ids')) : SameBlocks s s' ids' :=
  h.mono fun _ => List.mem_append_right _

mutual

theorem readItem_congr : ∀ item, SameBlocks s s' (Item.lines item) → s'.readItem item = s.readItem item
  | .line id, h => by
    rw [Item.lines] at h
    rw [readItem, readItem, h.body id List.mem_cons_self, h.closer id List.mem_cons_self]
  | .conditional id branches, h => by
    rw [Item.lines] at h
    rw [readItem, readItem, readBranches_congr id branches (h.mono fun _ => List.mem_cons_of_mem _),
      h.closer id List.mem_cons_self]

theorem readBack_congr : ∀ items, SameBlocks s s' (Item.allLines items) → s'.readBack items = s.readBack items
  | [], _ => by rw [readBack, readBack]
  | item :: items, h => by
    rw [Item.allLines] at h
    rw [readBack, readBack, readItem_congr item h.left, readBack_congr items h.right]

theorem readBranches_congr (id : LineId) :
    ∀ branches, SameBlocks s s' (Item.branchLines id branches) → s'.readBranches id branches = s.readBranches id branches
  | [], _ => by rw [readBranches, readBranches]
  | branch :: branches, h => by
    rw [Item.branchLines] at h
    rw [readBranches, readBranches, readBranch_congr id branch h.left, readBranches_congr id branches h.right]

theorem readBranch_congr (id : LineId) :
    ∀ branch, SameBlocks s s' (Item.bodyLines id branch) → s'.readBranch id branch = s.readBranch id branch
  | (header, body), h => by
    rw [Item.bodyLines] at h
    rw [readBranch, readBranch, readBack_congr body h.right]

end

/-! ## Lines that change -/

theorem command_modifyCommand (l : Line) (f : Line.CommandPart → Line.CommandPart) :
    (l.modifyCommand f).command? = l.command?.map f := by
  unfold Line.modifyCommand Line.command?
  cases hkind : l.kind <;> simp [hkind]

/-- Only some lines change, and none becomes another directive. -/
structure Touches (ids : List LineId) (s s' : Assembly) : Prop where
  others : ∀ j ∉ ids, s'.line j = s.line j
  directives : s'.directives = s.directives

/-- Only some lines change, and of them nothing but their state. -/
structure Marks (ids : List LineId) (s s' : Assembly) : Prop where
  others : ∀ j ∉ ids, s'.line j = s.line j
  kinds : ∀ j, (s'.line j).kind = (s.line j).kind

namespace Touches

theorem refl (ids : List LineId) (s : Assembly) : Touches ids s s := ⟨fun _ _ => rfl, rfl⟩

theorem trans {ids : List LineId} (h : Touches ids s s') (h' : Touches ids s' s'') : Touches ids s s'' :=
  ⟨fun j hj => (h'.others j hj).trans (h.others j hj), h'.directives.trans h.directives⟩

theorem mono {ids ids' : List LineId} (h : Touches ids s s') (hsub : ∀ j ∈ ids, j ∈ ids') : Touches ids' s s' :=
  ⟨fun j hj => h.others j fun hin => hj (hsub j hin), h.directives⟩

theorem modifyCommand (s : Assembly) (id : LineId) {f : Line.CommandPart → Line.CommandPart}
    (hf : ∀ part, (f part).directive = part.directive) :
    Touches [id] s (s.modifyLine id fun l => l.modifyCommand f) where
  others j hj := by
    rw [line_modifyLine, if_neg fun h => hj (List.mem_singleton.mpr h.1)]
  directives := by
    funext j
    unfold Assembly.directives
    rw [line_modifyLine]
    split
    · unfold Line.directive?
      rw [command_modifyCommand, Option.map_map]
      exact congrArg (Option.map · _) (funext hf)
    · rfl

end Touches

namespace Marks

variable {ids : List LineId}

theorem refl (ids : List LineId) (s : Assembly) : Marks ids s s := ⟨fun _ _ => rfl, fun _ => rfl⟩

theorem trans (h : Marks ids s s') (h' : Marks ids s' s'') : Marks ids s s'' :=
  ⟨fun j hj => (h'.others j hj).trans (h.others j hj), fun j => (h'.kinds j).trans (h.kinds j)⟩

theorem mono {ids' : List LineId} (h : Marks ids s s') (hsub : ∀ j ∈ ids, j ∈ ids') : Marks ids' s s' :=
  ⟨fun j hj => h.others j fun hin => hj (hsub j hin), h.kinds⟩

theorem mark (s : Assembly) (id : LineId) (state : LineState) : Marks [id] s (s.mark id state) where
  others j hj := by
    unfold Assembly.mark
    rw [line_modifyLine, if_neg fun h => hj (List.mem_singleton.mpr h.1)]
  kinds j := by
    unfold Assembly.mark
    rw [line_modifyLine]
    split
    · exact Line.kind_mark _ _
    · rfl

theorem fail (s : Assembly) (id : LineId) (span : Span) (message : String) : Marks [id] s (s.fail id span message) := by
  have hmark := mark (s.report { severity := .error, message, primary := span }) id .error
  exact ⟨hmark.others, hmark.kinds⟩

theorem closeBlock (s : Assembly) (id : LineId) : Marks [id] s (s.closeBlock id) := by
  have harguments : Marks [id] s (s.checkArguments id) := by
    unfold checkArguments
    split
    · exact refl _ s
    simp only
    split
    · exact fail s id _ _
    · split
      · split
        · exact fail s id _ _
        · exact refl _ s
      · exact refl _ s
  have hlabel : ∀ s : Assembly, Marks [id] s (s.checkLabel id).2 := by
    intro s
    unfold checkLabel
    simp only
    split
    · split
      · exact refl _ s
      · exact fail s id _ _
    · exact refl _ s
  exact (harguments.trans (hlabel _)).trans (mark _ id .finished)

theorem ignore (ids : List LineId) (s : Assembly) : Marks ids s (ids.foldl (fun s id => s.mark id .ignored) s) := by
  induction ids generalizing s with
  | nil => exact refl [] s
  | cons id ids ih =>
    exact ((mark s id .ignored).mono fun j hj => List.mem_cons.mpr (.inl (List.mem_singleton.mp hj))).trans
      ((ih _).mono fun j => List.mem_cons_of_mem id)

theorem rejectDividers (ids : List LineId) (s : Assembly) : Marks ids s (s.rejectDividers ids) := by
  induction ids generalizing s with
  | nil => exact refl [] s
  | cons id ids ih =>
    refine trans ?_ ((ih _).mono fun j => List.mem_cons_of_mem id)
    simp only
    split
    · exact (fail s id _ _).mono fun j hj => List.mem_cons.mpr (.inl (List.mem_singleton.mp hj))
    · exact refl _ s

theorem touches (h : Marks ids s s') : Touches ids s s' where
  others := h.others
  directives := by
    funext j
    unfold Assembly.directives Line.directive? Line.command?
    rw [h.kinds]

theorem closer (h : Marks ids s s') (j : LineId) : s'.closer? j = s.closer? j := by
  unfold closer? Line.command?
  rw [h.kinds]

theorem blockLines (h : Marks ids s s') (j : LineId) : s'.blockLines j = s.blockLines j := by
  unfold Assembly.blockLines Line.command?
  rw [h.kinds]

end Marks

theorem closer_of_line (h : s'.line j = s.line j) : s'.closer? j = s.closer? j := by
  unfold closer?
  rw [h]

theorem blockLines_of_line (h : s'.line j = s.line j) : s'.blockLines j = s.blockLines j := by
  unfold blockLines
  rw [h]

/-! ## Accounts of lines -/

theorem lt_size_of_fresh (h : (s.line id).IsFresh) : id < s.lines.size := by
  by_contra hge
  have hstate := h.1
  rw [line_of_size_le (Nat.le_of_not_lt hge)] at hstate
  cases hstate

theorem closer_of_fresh (h : (s.line id).IsFresh) : s.closer? id = none := by
  unfold closer?
  cases hcommand : (s.line id).command? with
  | none => rfl
  | some part => exact (h.2 part hcommand).2

theorem blockLines_of_fresh (h : (s.line id).IsFresh) : s.blockLines id = [] := by
  unfold blockLines
  cases hcommand : (s.line id).command? with
  | none => rfl
  | some part =>
    rw [Option.bind_some, (h.2 part hcommand).1]
    rfl

/-- Some items hold each of some lines once, in order, but for surplus dividers, which have been reported.
Every block that was closed ends where it has to, and a block was left open only where its line takes no
further part. -/
structure Accounts (s : Assembly) (ids : List LineId) (items : List Item) : Prop where
  order : (s.readBack items).Sublist ids
  complete : ∀ id ∈ ids, id ∈ s.readBack items ∨ Surplus s.directives ids id ∧ (s.line id).state = .error
  closed : ∀ id ∈ ids, ∀ stop, s.closer? id = some stop → Closes s.directives ids id stop
  settled : ∀ id ∈ Item.allLines items, ∀ d closer, s.directives id = some d → d.spec.closer = some closer →
    s.closer? id ≠ none ∨ (s.line id).isSkipped = true

namespace Accounts

variable {ids : List LineId}

theorem nil (s : Assembly) : Accounts s [] [] := by
  refine ⟨?_, nofun, nofun, fun id hid => ?_⟩
  · rw [readBack]
  · rw [Item.allLines] at hid
    cases hid

theorem single {id : LineId} (hbody : s.blockLines id = []) (hcloser : s.closer? id = none)
    (hopen : ∀ d closer, s.directives id = some d → d.spec.closer = some closer → (s.line id).isSkipped = true) :
    Accounts s [id] [.line id] := by
  have hread : s.readBack [.line id] = [id] := by
    rw [readBack_singleton, readItem, hbody, hcloser]
    rfl
  refine ⟨by rw [hread], fun j hj => .inl (by rw [hread]; exact hj), fun j hj stop hstop => ?_, fun j hj d closer hd hd' => ?_⟩
  · rw [List.mem_singleton.mp hj, hcloser] at hstop
    cases hstop
  · rw [Item.allLines_singleton, Item.lines] at hj
    rw [List.mem_singleton.mp hj] at hd ⊢
    exact .inr (hopen d closer hd hd')

theorem append {ids' : List LineId} {items items' : List Item} (h : Accounts s ids items)
    (h' : Accounts s ids' items') : Accounts s (ids ++ ids') (items ++ items') := by
  have hleft : Within s.directives ids (ids ++ ids') := .of_append [] ids ids'
  have hright : Within s.directives ids' (ids ++ ids') := by
    have hback : Within s.directives ids' (ids ++ (ids' ++ [])) := .of_append ids ids' []
    rwa [List.append_nil] at hback
  refine ⟨?_, fun id hid => ?_, fun id hid stop hstop => ?_, fun id hid => ?_⟩
  · rw [readBack_append]
    exact h.order.append h'.order
  · rw [readBack_append]
    rcases List.mem_append.mp hid with hid | hid
    · exact (h.complete id hid).imp (List.mem_append_left _) (And.imp_left (·.within hleft))
    · exact (h'.complete id hid).imp (List.mem_append_right _) (And.imp_left (·.within hright))
  · rcases List.mem_append.mp hid with hid | hid
    · exact (h.closed id hid stop hstop).within hleft
    · exact (h'.closed id hid stop hstop).within hright
  · rw [Item.allLines_append] at hid
    rcases List.mem_append.mp hid with hid | hid
    · exact h.settled id hid
    · exact h'.settled id hid

theorem congr {items : List Item} (h : Accounts s ids items)
    (hlines : ∀ id ∈ ids, s'.line id = s.line id) (hdirectives : s'.directives = s.directives) :
    Accounts s' ids items := by
  have hin : ∀ id ∈ Item.allLines items, id ∈ ids := fun id hid =>
    h.order.subset (lines_subset_readBack s items id hid)
  have hread : s'.readBack items = s.readBack items :=
    readBack_congr items ⟨fun id hid => blockLines_of_line (hlines id (hin id hid)),
      fun id hid => closer_of_line (hlines id (hin id hid))⟩
  refine ⟨hread ▸ h.order, fun id hid => ?_, fun id hid stop hstop => ?_, fun id hid d closer hd hcloser => ?_⟩
  · rw [hread, hdirectives, hlines id hid]
    exact h.complete id hid
  · rw [closer_of_line (hlines id hid)] at hstop
    rw [hdirectives]
    exact h.closed id hid stop hstop
  · rw [closer_of_line (hlines id (hin id hid)), hlines id (hin id hid)]
    exact h.settled id hid d closer (hdirectives ▸ hd) hcloser

theorem lines (hbody : ∀ id ∈ ids, s.blockLines id = []) (hcloser : ∀ id ∈ ids, s.closer? id = none)
    (hskipped : ∀ id ∈ ids, (s.line id).isSkipped = true) : Accounts s ids (ids.map Item.line) := by
  induction ids with
  | nil => exact nil s
  | cons id ids ih =>
    exact (single (hbody id List.mem_cons_self) (hcloser id List.mem_cons_self)
      fun _ _ _ _ => hskipped id List.mem_cons_self).append
      (ih (fun j hj => hbody j (List.mem_cons_of_mem id hj)) (fun j hj => hcloser j (List.mem_cons_of_mem id hj))
        fun j hj => hskipped j (List.mem_cons_of_mem id hj))

end Accounts

/-! ## States of lines -/

theorem state_mark_error {l : Line} (h : l.state = .unresolved ∨ l.state = .error) : (l.mark .error).state = .error := by
  rcases h with h | h <;> simp [Line.mark, h]

theorem lt_size_of_state (h : (s.line id).state ≠ .ignored) : id < s.lines.size := by
  by_contra hge
  rw [line_of_size_le (Nat.le_of_not_lt hge)] at h
  exact h rfl

theorem state_fail {span : Span} {message : String} (h : (s.line id).state = .unresolved ∨ (s.line id).state = .error) :
    ((s.fail id span message).line id).state = .error := by
  have hlt : id < s.lines.size := lt_size_of_state (by rcases h with h | h <;> rw [h] <;> nofun)
  have hline : (s.fail id span message).line id = (s.line id).mark .error :=
    (line_modifyLine (s.report _) id id _).trans (if_pos ⟨rfl, hlt⟩)
  rw [hline]
  exact state_mark_error h

theorem state_rejectDividers (ids : List LineId) (s : Assembly) (hdirective : ∀ id ∈ ids, s.directives id ≠ none)
    (j : LineId) (hj : (s.line j).state = .error ∨ j ∈ ids ∧ (s.line j).state = .unresolved) :
    ((s.rejectDividers ids).line j).state = .error := by
  induction ids generalizing s with
  | nil => exact hj.resolve_right fun h => absurd h.1 List.not_mem_nil
  | cons id ids ih =>
    obtain ⟨d, hd⟩ := Option.ne_none_iff_exists'.mp (hdirective id List.mem_cons_self)
    have hmark := Marks.fail s id (s.line id).origin.span s!"{d.name} after .ELSE"
    have hstep : s.rejectDividers (id :: ids) =
        (s.fail id (s.line id).origin.span s!"{d.name} after .ELSE").rejectDividers ids := by
      unfold rejectDividers
      rw [List.foldl_cons]
      simp only [show (s.line id).directive? = some d from hd]
    rw [hstep]
    refine ih _ (fun k hk => ?_) ?_
    · rw [hmark.touches.directives]
      exact hdirective k (List.mem_cons_of_mem id hk)
    · by_cases heq : j = id
      · subst heq
        exact .inl (state_fail (hj.symm.imp_left And.right))
      · rw [hmark.others j fun h => heq (List.mem_singleton.mp h)]
        exact hj.imp_right fun h => ⟨(List.mem_cons.mp h.1).resolve_left heq, h.2⟩

theorem skipped_ignore (ids : List LineId) (s : Assembly) (j : LineId)
    (hj : (s.line j).isSkipped = true ∨ j ∈ ids ∧ (s.line j).state = .unresolved) :
    ((ids.foldl (fun s id => s.mark id .ignored) s).line j).isSkipped = true := by
  induction ids generalizing s with
  | nil => exact hj.resolve_right fun h => absurd h.1 List.not_mem_nil
  | cons id ids ih =>
    rw [List.foldl_cons]
    refine ih _ ?_
    have hline : (s.mark id .ignored).line j =
        if j = id ∧ j < s.lines.size then (s.line j).mark .ignored else s.line j := line_modifyLine s id j _
    rw [hline]
    rcases hj with hskipped | ⟨hin, hstate⟩
    · refine .inl ?_
      split
      · unfold Line.isSkipped Line.mark at *
        cases hstate : (s.line j).state <;> simp_all
      · exact hskipped
    · by_cases heq : j = id
      · rw [if_pos ⟨heq, lt_size_of_state (by rw [hstate]; nofun)⟩]
        exact .inl (by simp [Line.isSkipped, Line.mark, hstate])
      · rw [if_neg fun h => heq h.1]
        exact .inr ⟨(List.mem_cons.mp hin).resolve_left heq, hstate⟩

/-! ## Arranging -/

/-- What a way to arrange lines does for short enough lists of fresh ones. -/
def Arranges (bound : Nat) (arrange : Assembly → List LineId → List Item × Assembly) : Prop :=
  ∀ (s : Assembly) (ids : List LineId), ids.length ≤ bound → ids.Nodup → (∀ id ∈ ids, (s.line id).IsFresh) →
    Touches ids s (arrange s ids).2 ∧ Accounts (arrange s ids).2 ids (arrange s ids).1

theorem arrangeBranches_accounts {bound : Nat} {arrange : Assembly → List LineId → List Item × Assembly}
    (harrange : Arranges bound arrange) (branches : List (LineId × List LineId)) (s : Assembly)
    (hbound : ∀ b ∈ branches, b.2.length ≤ bound) (hnodup : (branches.flatMap Prod.snd).Nodup)
    (hfresh : ∀ id ∈ branches.flatMap Prod.snd, (s.line id).IsFresh) :
    Touches (branches.flatMap Prod.snd) s (arrangeBranches arrange s branches).2 ∧
      List.Forall₂ (fun b r => r.1 = b.1 ∧ Accounts (arrangeBranches arrange s branches).2 b.2 r.2) branches
        (arrangeBranches arrange s branches).1 := by
  induction branches generalizing s with
  | nil => exact ⟨.refl _ s, .nil⟩
  | cons b branches ih =>
    obtain ⟨header, body⟩ := b
    rw [List.flatMap_cons] at hnodup hfresh ⊢
    have hapart : ∀ id ∈ body, id ∉ branches.flatMap Prod.snd :=
      fun id hid hother => List.disjoint_of_nodup_append hnodup hid hother
    obtain ⟨htouch, haccount⟩ := harrange s body (hbound _ List.mem_cons_self) hnodup.of_append_left
      fun id hid => hfresh id (List.mem_append_left _ hid)
    obtain ⟨htouches, haccounts⟩ := ih (arrange s body).2 (fun b hb => hbound b (List.mem_cons_of_mem _ hb))
      hnodup.of_append_right fun id hid => by
        rw [htouch.others id fun hin => hapart id hin hid]
        exact hfresh id (List.mem_append_right _ hid)
    rw [arrangeBranches]
    refine ⟨(htouch.mono fun _ => List.mem_append_left _).trans (htouches.mono fun _ => List.mem_append_right _),
      .cons ⟨rfl, ?_⟩ haccounts⟩
    exact haccount.congr (fun id hid => htouches.others id (hapart id hid)) htouches.directives

theorem closer_modifyCommand {f : Line.CommandPart → Line.CommandPart} {part : Line.CommandPart}
    (hid : id < s.lines.size) (hpart : (s.line id).command? = some part) :
    (s.modifyLine id fun l => l.modifyCommand f).closer? id = (f part).closer ∧
      (s.modifyLine id fun l => l.modifyCommand f).blockLines id = (f part).body.getD [] := by
  unfold closer? blockLines
  rw [line_modifyLine, if_pos ⟨rfl, hid⟩, command_modifyCommand, hpart]
  exact ⟨rfl, rfl⟩

theorem order_branches (h : List.Forall₂ (fun b r => r.1 = b.1 ∧ Accounts s b.2 r.2) branches results) (id : LineId) :
    (s.readBranches id results).Sublist (branchIds branches) := by
  induction h with
  | nil =>
    rw [readBranches]
    exact List.nil_sublist _
  | @cons b r branches results hfirst _ ih =>
    have hheader : (if r.1 = id then [] else [r.1]).Sublist [b.1] := by
      split
      · exact List.nil_sublist _
      · rw [hfirst.1]
    rw [readBranches, readBranch]
    exact (hheader.append hfirst.2.order).append ih

theorem mem_readBranches (h : List.Forall₂ (fun b r => r.1 = b.1 ∧ Accounts s b.2 r.2) branches results) (id : LineId)
    {b : LineId × List LineId} (hb : b ∈ branches) :
    ∃ items, Accounts s b.2 items ∧ (∀ j ∈ s.readBack items, j ∈ s.readBranches id results) ∧
      (b.1 ≠ id → b.1 ∈ s.readBranches id results) := by
  induction h with
  | nil => cases hb
  | @cons first r branches results hfirst _ ih =>
    rw [readBranches, readBranch]
    rcases List.mem_cons.mp hb with rfl | hb
    · refine ⟨r.2, hfirst.2, fun j hj => List.mem_append_left _ (List.mem_append_right _ hj), fun hne => ?_⟩
      rw [hfirst.1, if_neg hne]
      exact List.mem_cons_self
    · obtain ⟨items, haccounts, hread, hheader⟩ := ih hb
      exact ⟨items, haccounts, fun j hj => List.mem_append_right _ (hread j hj),
        fun hne => List.mem_append_right _ (hheader hne)⟩

theorem settled_branches (h : List.Forall₂ (fun b r => r.1 = b.1 ∧ Accounts s b.2 r.2) branches results) (id : LineId)
    (hj : j ∈ Item.branchLines id results) :
    (∃ b ∈ branches, j = b.1 ∧ j ≠ id) ∨ ∀ d closer, s.directives j = some d → d.spec.closer = some closer →
      s.closer? j ≠ none ∨ (s.line j).isSkipped = true := by
  induction h with
  | nil =>
    rw [Item.branchLines] at hj
    cases hj
  | @cons b r branches results hfirst _ ih =>
    rw [Item.branchLines, Item.bodyLines] at hj
    rcases List.mem_append.mp hj with hj | hj
    · rcases List.mem_append.mp hj with hj | hj
      · split at hj
        · cases hj
        · rename_i hne
          rw [List.mem_singleton.mp hj]
          exact .inl ⟨b, List.mem_cons_self, hfirst.1, hne⟩
      · exact .inr (hfirst.2.settled j hj)
    · exact (ih hj).imp_left fun ⟨b, hb, h⟩ => ⟨b, List.mem_cons_of_mem _ hb, h⟩

theorem bodies_sublist (branches : List (LineId × List LineId)) :
    (branches.flatMap Prod.snd).Sublist (branchIds branches) := by
  induction branches with
  | nil => exact .slnil
  | cons b branches ih => exact ((List.sublist_cons_self _ _).append ih)

theorem header_not_mem (h : (branchIds branches).Nodup)
    {b : LineId × List LineId} (hb : b ∈ branches) : b.1 ∉ branches.flatMap Prod.snd := by
  induction branches with
  | nil => cases hb
  | cons first branches ih =>
    have hsplit : ((first.1 :: first.2) ++ branchIds branches).Nodup := h
    have hapart := List.disjoint_of_nodup_append hsplit
    rw [List.flatMap_cons]
    intro hin
    rcases List.mem_cons.mp hb with rfl | hb
    · rcases List.mem_append.mp hin with hin | hin
      · exact (List.nodup_cons.mp hsplit.of_append_left).1 hin
      · exact hapart List.mem_cons_self ((bodies_sublist branches).subset hin)
    · rcases List.mem_append.mp hin with hin | hin
      · exact hapart (List.mem_cons_of_mem _ hin) (List.mem_flatMap.mpr ⟨b, hb, List.mem_cons_self⟩)
      · exact ih hsplit.of_append_right hb hin

theorem forall₂_mem_imp {α β : Type} {R S : α → β → Prop} {as : List α} {bs : List β}
    (h : ∀ a b, a ∈ as → R a b → S a b) (hall : List.Forall₂ R as bs) : List.Forall₂ S as bs := by
  induction hall with
  | nil => exact .nil
  | cons hfirst _ ih =>
    exact .cons (h _ _ List.mem_cons_self hfirst) (ih fun a b ha => h a b (List.mem_cons_of_mem _ ha))

/-- A block between the line that begins it and the line that ends it, none of which anything was done with. -/
structure IsBlock (s : Assembly) (id : LineId) (part : Line.CommandPart) (closer : Directive) (body : List LineId)
    (stop : LineId) : Prop where
  command : (s.line id).command? = some part
  closes : part.directive.spec.closer = some closer
  ends : Ends s.directives closer body stop
  nodup : (id :: (body ++ [stop])).Nodup
  fresh : ∀ j ∈ id :: (body ++ [stop]), (s.line j).IsFresh

namespace IsBlock

variable {id stop : LineId} {part : Line.CommandPart} {closer : Directive} {body : List LineId}

theorem directive (h : IsBlock s id part closer body stop) : s.directives id = some part.directive := by
  unfold directives Line.directive?
  rw [h.command]
  rfl

theorem not_mem (h : IsBlock s id part closer body stop) : id ∉ body ∧ id ≠ stop := by
  have hnot := (List.nodup_cons.mp h.nodup).1
  refine ⟨fun hin => hnot (List.mem_append_left _ hin), fun heq => hnot (List.mem_append_right _ ?_)⟩
  rw [heq]
  exact List.mem_cons_self

theorem stop_not_mem (h : IsBlock s id part closer body stop) : stop ∉ body := fun hin =>
  List.disjoint_of_nodup_append (List.nodup_cons.mp h.nodup).2 hin List.mem_cons_self

theorem closesAt (h : IsBlock s id part closer body stop) : Closes s.directives (id :: (body ++ [stop])) id stop :=
  ⟨part.directive, closer, [], body, [], h.directive, h.closes, rfl, h.ends⟩

theorem within (s : Assembly) (id : LineId) (body : List LineId) (stop : LineId) :
    Within s.directives body (id :: (body ++ [stop])) := .of_append [id] body [stop]

theorem fresh_body (h : IsBlock s id part closer body stop) {j : LineId} (hj : j ∈ body) : (s.line j).IsFresh :=
  h.fresh j (List.mem_cons_of_mem id (List.mem_append_left _ hj))

theorem accounts_kept (h : IsBlock s id part closer body stop) (s' : Assembly)
    (hs' : s' = (s.closeBlock stop).modifyLine id fun l => l.modifyCommand fun part =>
      { part with body := some body, closer := some stop }) :
    Touches (id :: (body ++ [stop])) s s' ∧ Accounts s' (id :: (body ++ [stop])) [.line id] := by
  have hclose := Marks.closeBlock s stop
  have hmodify : Touches [id] (s.closeBlock stop) s' := hs' ▸ .modifyCommand _ id fun _ => rfl
  have htouch : Touches (id :: (body ++ [stop])) s s' :=
    (hclose.touches.mono (by simp)).trans (hmodify.mono (by simp))
  have hline : (s.closeBlock stop).line id = s.line id :=
    hclose.others id fun hin => h.not_mem.2 (List.mem_singleton.mp hin)
  have hlt : id < (s.closeBlock stop).lines.size :=
    lt_size_of_fresh (hline.symm ▸ h.fresh id List.mem_cons_self)
  obtain ⟨hcloser, hbody⟩ := closer_modifyCommand (s := s.closeBlock stop) hlt (hline.symm ▸ h.command)
  have hread : s'.readBack [.line id] = id :: (body ++ [stop]) := by
    rw [readBack_singleton, readItem, hs', hcloser, hbody]
    rfl
  refine ⟨htouch, by rw [hread], fun j hj => .inl (by rw [hread]; exact hj), fun j hj other hother => ?_,
    fun j hj _ _ _ _ => .inl ?_⟩
  · rcases List.mem_cons.mp hj with rfl | hin
    · rw [hs', hcloser] at hother
      cases hother
      rw [htouch.directives]
      exact h.closesAt
    · have hne : j ≠ id := by
        rintro rfl
        exact (List.nodup_cons.mp h.nodup).1 hin
      rw [closer_of_line (hmodify.others j fun hj => hne (List.mem_singleton.mp hj)), hclose.closer,
        closer_of_fresh (h.fresh j hj)] at hother
      cases hother
  · rw [Item.allLines_singleton, Item.lines] at hj
    rw [List.mem_singleton.mp hj, hs', hcloser]
    nofun

theorem family (h : IsBlock s id part closer body stop) (hconditional : part.directive.isConditional = true) :
    closer = .endWhen := by
  rw [Directive.isConditional, Directive.opens, beq_iff_eq, h.closes] at hconditional
  exact Option.some.inj hconditional

/-- A conditional accounts for the lines of its block when its branches account for theirs. -/
theorem accounts_branches (h : IsBlock s id part closer body stop) (hconditional : part.directive.isConditional = true)
    {d : Division} (hdivided : Divided s.directives 0 false body d) (hof : Division.Of d body)
    (hdirectives : s'.directives = s.directives) {items : List Item} {results : List (LineId × List Item)}
    (hfirst : Accounts s' d.first items)
    (hbranches : List.Forall₂ (fun b r => r.1 = b.1 ∧ Accounts s' b.2 r.2) d.branches results)
    (hid : s'.closer? id = some stop) (hstop : s'.closer? stop = none)
    (hheader : ∀ b ∈ d.branches, s'.closer? b.1 = none)
    (hrejected : ∀ j ∈ d.rejected, s'.closer? j = none ∧ (s'.line j).state = .error) :
    Accounts s' (id :: (body ++ [stop])) [.conditional id ((id, items) :: results)] := by
  have hends : Ends s.directives .endWhen body stop := h.family hconditional ▸ h.ends
  have hread : s'.readBack [.conditional id ((id, items) :: results)] =
      id :: ((s'.readBack items ++ s'.readBranches id results) ++ [stop]) := by
    rw [readBack_singleton, readItem, readBranches, readBranch, if_pos rfl, hid]
    rfl
  -- a line of the block is in the first branch, in a later one, or rejected
  have hplace : ∀ j ∈ body, j ∈ d.first ∨ (∃ b ∈ d.branches, j ∈ b.1 :: b.2) ∨ j ∈ d.rejected := by
    intro j hj
    simpa only [List.mem_append, List.mem_flatMap] using hdivided.all.mem_iff.mpr hj
  have hwithinFirst : Within s'.directives d.first (id :: (body ++ [stop])) := by
    rw [hdirectives]
    obtain ⟨middle, after, hbody, hthin⟩ := hdivided.first
    exact Within.trans ⟨[], middle, after, hbody, hthin⟩ (within s id body stop)
  have hwithin : ∀ b ∈ d.branches, Within s'.directives b.2 (id :: (body ++ [stop])) := by
    intro b hb
    rw [hdirectives]
    exact (hdivided.branches b hb).2.trans (within s id body stop)
  refine ⟨?_, fun j hj => ?_, fun j hj other hother => ?_, fun j hj dir close hdir hclose => ?_⟩
  · rw [hread]
    exact ((hfirst.order.append (order_branches hbranches id)).trans hof.kept |>.append (.refl [stop])).cons_cons id
  · rw [hread]
    rcases List.mem_cons.mp hj with rfl | hj
    · exact .inl List.mem_cons_self
    rcases List.mem_append.mp hj with hj | hj
    · rcases hplace j hj with hin | ⟨b, hb, hin⟩ | hin
      · refine (hfirst.complete j hin).imp (fun hread => ?_) (And.imp_left (·.within hwithinFirst))
        exact List.mem_cons_of_mem _ (List.mem_append_left _ (List.mem_append_left _ hread))
      · obtain ⟨items', haccounts, hinner, houter⟩ := mem_readBranches hbranches id hb
        rcases List.mem_cons.mp hin with rfl | hin
        · refine .inl (List.mem_cons_of_mem _ (List.mem_append_left _ (List.mem_append_right _ (houter ?_))))
          rintro heq
          exact h.not_mem.1 (heq ▸ hj)
        · refine (haccounts.complete j hin).imp (fun hread => ?_) (And.imp_left (·.within (hwithin b hb)))
          exact List.mem_cons_of_mem _ (List.mem_append_left _ (List.mem_append_right _ (hinner j hread)))
      · rw [hdirectives]
        exact .inr ⟨hdivided.surplus hends h.directive hconditional hin, (hrejected j hin).2⟩
    · exact .inl (List.mem_cons_of_mem _ (List.mem_append_right _ hj))
  · rcases List.mem_cons.mp hj with rfl | hj
    · rw [hid] at hother
      cases hother
      rw [hdirectives]
      exact h.closesAt
    rcases List.mem_append.mp hj with hj | hj
    · rcases hplace j hj with hin | ⟨b, hb, hin⟩ | hin
      · exact (hfirst.closed j hin other hother).within hwithinFirst
      · rcases List.mem_cons.mp hin with rfl | hin
        · rw [hheader b hb] at hother
          cases hother
        · obtain ⟨items', haccounts, -, -⟩ := mem_readBranches hbranches id hb
          exact (haccounts.closed j hin other hother).within (hwithin b hb)
      · rw [(hrejected j hin).1] at hother
        cases hother
    · rw [List.mem_singleton.mp hj, hstop] at hother
      cases hother
  · rw [Item.allLines_singleton, Item.lines] at hj
    rcases List.mem_cons.mp hj with rfl | hj
    · rw [hid]
      exact .inl nofun
    rw [Item.branchLines, Item.bodyLines, if_pos rfl, List.nil_append] at hj
    rcases List.mem_append.mp hj with hj | hj
    · exact hfirst.settled j hj dir close hdir hclose
    · rcases settled_branches hbranches id hj with ⟨b, hb, rfl, -⟩ | hsettled
      · -- a divider begins no block
        rw [hdirectives] at hdir
        rcases (hdivided.branches b hb).1 with hdivider | hdivider <;> rw [hdir] at hdivider <;> cases hdivider <;> cases hclose
      · exact hsettled dir close hdir hclose

theorem accounts_conditional (h : IsBlock s id part closer body stop)
    (hconditional : part.directive.isConditional = true) {bound : Nat}
    {arrange : Assembly → List LineId → List Item × Assembly} (harrange : Arranges bound arrange)
    (hbound : body.length ≤ bound) :
    Touches (id :: (body ++ [stop])) s (arrangeBlock arrange s id part.directive body stop).2 ∧
      Accounts (arrangeBlock arrange s id part.directive body stop).2 (id :: (body ++ [stop]))
        [(arrangeBlock arrange s id part.directive body stop).1] := by
  have hclose := Marks.closeBlock s stop
  have hdirectives : (fun id => ((s.closeBlock stop).line id).directive?) = s.directives := hclose.touches.directives
  unfold arrangeBlock
  simp only [if_pos hconditional]
  rw [hdirectives]
  have hdivided := divided 0 false body (h.family hconditional ▸ h.ends.inside)
  have hof := divide_of s.directives body 0 false
  generalize divide s.directives 0 false body = d at hdivided hof ⊢
  have hreject := Marks.rejectDividers d.rejected (s.closeBlock stop)
  -- the lines of the branches, their headers and the rejected dividers are all different
  have hbody : body.Nodup := (List.nodup_cons.mp h.nodup).2.of_append_left
  have hall : (d.first ++ (branchIds d.branches ++ d.rejected)).Nodup := hdivided.all.nodup_iff.mpr hbody
  have hmem : ∀ {j}, j ∈ d.first ++ (branchIds d.branches ++ d.rejected) → j ∈ body := hdivided.all.mem_iff.mp
  have hparts := List.disjoint_of_nodup_append hall
  have hbodies : ∀ {j}, j ∈ d.first ++ d.branches.flatMap Prod.snd → j ∈ body ∧ j ∉ d.rejected := by
    intro j hj
    rcases List.mem_append.mp hj with hj | hj
    · exact ⟨hmem (List.mem_append_left _ hj), fun hin => hparts hj (List.mem_append_right _ hin)⟩
    · have hin := (bodies_sublist d.branches).subset hj
      exact ⟨hmem (List.mem_append_right _ (List.mem_append_left _ hin)),
        List.disjoint_of_nodup_append hall.of_append_right hin⟩
  have hkept : ∀ {j}, j ∈ body → j ∉ d.rejected →
      ((s.closeBlock stop).rejectDividers d.rejected).line j = s.line j := by
    intro j hj hnot
    rw [hreject.others j hnot]
    exact hclose.others j fun hin => h.stop_not_mem (List.mem_singleton.mp hin ▸ hj)
  obtain ⟨htouch, haccounts⟩ := arrangeBranches_accounts harrange ((id, d.first) :: d.branches)
    ((s.closeBlock stop).rejectDividers d.rejected)
    (fun b hb => by
      rcases List.mem_cons.mp hb with rfl | hb
      · exact hof.first.length_le.trans hbound
      · exact (hof.branches hb).2.length_le.trans hbound)
    (((List.Sublist.refl d.first).append ((bodies_sublist d.branches).trans (List.sublist_append_left _ _))).nodup hall)
    (fun j hj => by
      rw [hkept (hbodies hj).1 (hbodies hj).2]
      exact h.fresh_body (hbodies hj).1)
  generalize arrangeBranches arrange ((s.closeBlock stop).rejectDividers d.rejected) ((id, d.first) :: d.branches) =
    arranged at htouch haccounts ⊢
  obtain ⟨results, s2⟩ := arranged
  obtain _ | @⟨_, ⟨header, items⟩, _, results, ⟨hheader, hfirst⟩, hbranches⟩ := haccounts
  rw [show header = id from hheader]
  obtain ⟨s3, hs3⟩ : ∃ s3, s3 = s2.modifyLine id fun l => l.modifyCommand fun part => { part with closer := some stop } :=
    ⟨_, rfl⟩
  simp only
  rw [← hs3]
  have hmodify : Touches [id] s2 s3 := hs3 ▸ .modifyCommand s2 id fun _ => rfl
  have hrejected : ∀ {j}, j ∈ d.rejected → j ∈ body := fun hj =>
    hmem (List.mem_append_right _ (List.mem_append_right _ hj))
  have hline : s2.line id = s.line id := by
    rw [htouch.others id fun hin => h.not_mem.1 (hbodies hin).1, hreject.others id fun hin => h.not_mem.1 (hrejected hin)]
    exact hclose.others id fun hin => h.not_mem.2 (List.mem_singleton.mp hin)
  have hcloser : s3.closer? id = some stop := by
    rw [hs3]
    exact (closer_modifyCommand (lt_size_of_fresh (hline.symm ▸ h.fresh id List.mem_cons_self))
      (hline.symm ▸ h.command)).1
  -- what is not in a branch has at most been marked
  have hmarked : ∀ {j}, j ∈ body ++ [stop] → j ∉ d.first ++ d.branches.flatMap Prod.snd →
      s3.line j = ((s.closeBlock stop).rejectDividers d.rejected).line j := by
    intro j hj hnot
    rw [hmodify.others j fun hin => (List.nodup_cons.mp h.nodup).1 (List.mem_singleton.mp hin ▸ hj)]
    exact htouch.others j hnot
  have hopen : ∀ {j}, j ∈ body ++ [stop] → j ∉ d.first ++ d.branches.flatMap Prod.snd → s3.closer? j = none := by
    intro j hj hnot
    rw [closer_of_line (hmarked hj hnot), hreject.closer, hclose.closer]
    exact closer_of_fresh (h.fresh j (List.mem_cons_of_mem id hj))
  have hlater : ∀ {ids items}, (∀ j ∈ ids, j ∈ body) → Accounts s2 ids items → Accounts s3 ids items :=
    fun hids haccounts => haccounts.congr
      (fun j hj => hmodify.others j fun hin => h.not_mem.1 (List.mem_singleton.mp hin ▸ hids j hj)) hmodify.directives
  refine ⟨?_, h.accounts_branches hconditional hdivided hof ?_
    (hlater (fun j hj => (hbodies (List.mem_append_left _ hj)).1) hfirst) ?_ hcloser ?_ (fun b hb => ?_)
    fun j hj => ⟨?_, ?_⟩⟩
  · refine (((hclose.touches.mono ?_).trans (hreject.touches.mono ?_)).trans (htouch.mono ?_)).trans (hmodify.mono ?_)
    · exact fun j hj => List.mem_cons_of_mem _ (List.mem_append_right _ hj)
    · exact fun j hj => List.mem_cons_of_mem _ (List.mem_append_left _ (hrejected hj))
    · exact fun j hj => List.mem_cons_of_mem _ (List.mem_append_left _ (hbodies hj).1)
    · exact fun j hj => List.mem_cons.mpr (.inl (List.mem_singleton.mp hj))
  · rw [hmodify.directives, htouch.directives, hreject.touches.directives, hclose.touches.directives]
  · refine forall₂_mem_imp (fun b r hb hr => ⟨hr.1, hlater (fun j hj => ?_) hr.2⟩) hbranches
    exact (hbodies (List.mem_append_right _ (List.mem_flatMap.mpr ⟨b, hb, hj⟩))).1
  · exact hopen (List.mem_append_right _ List.mem_cons_self) fun hin => h.stop_not_mem (hbodies hin).1
  · have hin : b.1 ∈ branchIds d.branches := List.mem_flatMap.mpr ⟨b, hb, List.mem_cons_self⟩
    refine hopen (List.mem_append_left _ (hmem (List.mem_append_right _ (List.mem_append_left _ hin)))) fun hbad => ?_
    rcases List.mem_append.mp hbad with hbad | hbad
    · exact hparts hbad (List.mem_append_left _ hin)
    · exact header_not_mem hall.of_append_right.of_append_left hb hbad
  · exact hopen (List.mem_append_left _ (hrejected hj)) fun hin => (hbodies hin).2 hj
  · rw [hmarked (List.mem_append_left _ (hrejected hj)) fun hin => (hbodies hin).2 hj]
    refine state_rejectDividers d.rejected _ (fun k hk => ?_) j (.inr ⟨hj, ?_⟩)
    · rw [hclose.touches.directives]
      rcases (hdivided.rejected k hk).1 with hdivider | hdivider <;> rw [hdivider] <;> nofun
    · rw [hclose.others j fun hin => h.stop_not_mem (List.mem_singleton.mp hin ▸ hrejected hj)]
      exact (h.fresh_body (hrejected hj)).1

theorem arrangeBlock_accounts (h : IsBlock s id part closer body stop) {bound : Nat}
    {arrange : Assembly → List LineId → List Item × Assembly} (harrange : Arranges bound arrange)
    (hbound : body.length ≤ bound) :
    Touches (id :: (body ++ [stop])) s (arrangeBlock arrange s id part.directive body stop).2 ∧
      Accounts (arrangeBlock arrange s id part.directive body stop).2 (id :: (body ++ [stop]))
        [(arrangeBlock arrange s id part.directive body stop).1] := by
  by_cases hconditional : part.directive.isConditional = true
  · exact h.accounts_conditional hconditional harrange hbound
  · unfold arrangeBlock
    simp only [if_neg hconditional]
    exact h.accounts_kept _ rfl

end IsBlock

theorem accounts_cons {bound : Nat} {arrange : Assembly → List LineId → List Item × Assembly}
    (harrange : Arranges bound arrange) {front rest : List LineId} {items : List Item} (hbound : rest.length ≤ bound)
    (hnodup : (front ++ rest).Nodup) (hfresh : ∀ id ∈ rest, (s.line id).IsFresh) (htouch : Touches front s s')
    (haccounts : Accounts s' front items) :
    Touches (front ++ rest) s (arrange s' rest).2 ∧
      Accounts (arrange s' rest).2 (front ++ rest) (items ++ (arrange s' rest).1) := by
  have hapart := List.disjoint_of_nodup_append hnodup
  obtain ⟨hlater, hrest⟩ := harrange s' rest hbound hnodup.of_append_right fun id hid => by
    rw [htouch.others id fun hin => hapart hin hid]
    exact hfresh id hid
  refine ⟨(htouch.mono fun _ => List.mem_append_left _).trans (hlater.mono fun _ => List.mem_append_right _), ?_⟩
  exact (haccounts.congr (fun id hid => hlater.others id (hapart hid)) hlater.directives).append hrest

theorem accounts_of_marks (hfresh : (s.line id).IsFresh) (h : Marks ids s s')
    (hopen : ∀ d closer, s.directives id = some d → d.spec.closer = some closer → (s'.line id).isSkipped = true) :
    Accounts s' [id] [.line id] := by
  refine .single ?_ ?_ fun d closer hd => hopen d closer (h.touches.directives ▸ hd)
  · rw [h.blockLines, blockLines_of_fresh hfresh]
  · rw [h.closer, closer_of_fresh hfresh]

/-- A block that nothing ends takes the lines after it with it. -/
theorem accounts_unmatched {rest : List LineId} {span : Span} {message : String}
    (hnodup : (id :: rest).Nodup) (hfresh : ∀ j ∈ id :: rest, (s.line j).IsFresh) :
    Touches (id :: rest) s (rest.foldl (fun s id => s.mark id .ignored) (s.fail id span message)) ∧
      Accounts (rest.foldl (fun s id => s.mark id .ignored) (s.fail id span message)) (id :: rest)
        ((id :: rest).map Item.line) := by
  have hfail := Marks.fail s id span message
  have hmarks : Marks (id :: rest) s (rest.foldl (fun s id => s.mark id .ignored) (s.fail id span message)) :=
    (hfail.mono fun j hj => List.mem_cons.mpr (.inl (List.mem_singleton.mp hj))).trans
      ((Marks.ignore rest _).mono fun j => List.mem_cons_of_mem id)
  refine ⟨hmarks.touches, .lines (fun j hj => ?_) (fun j hj => ?_) fun j hj => skipped_ignore rest _ j ?_⟩
  · rw [hmarks.blockLines, blockLines_of_fresh (hfresh j hj)]
  · rw [hmarks.closer, closer_of_fresh (hfresh j hj)]
  · rcases List.mem_cons.mp hj with rfl | hin
    · left
      simp [Line.isSkipped, state_fail (.inl (hfresh j hj).1)]
    · have hne : j ∉ [id] := fun heq => (List.nodup_cons.mp hnodup).1 (List.mem_singleton.mp heq ▸ hin)
      exact .inr ⟨hin, by rw [hfail.others j hne]; exact (hfresh j hj).1⟩

/-- Arranging fresh lines accounts for them: every block holds fewer lines than stand in front of its end. -/
theorem arrangeWithin_accounts (bound : Nat) : Arranges bound (arrangeWithin bound) := by
  induction bound with
  | zero =>
    intro s ids hlength _ _
    obtain rfl := List.eq_nil_of_length_eq_zero (Nat.le_zero.mp hlength)
    exact ⟨.refl _ s, .nil s⟩
  | succ bound ih =>
    intro s ids hlength hnodup hfresh
    cases ids with
    | nil => exact ⟨.refl _ s, .nil s⟩
    | cons id rest =>
      have hid := hfresh id List.mem_cons_self
      have hrest : ∀ j ∈ rest, (s.line j).IsFresh := fun j hj => hfresh j (List.mem_cons_of_mem id hj)
      have hshort : rest.length ≤ bound := Nat.le_of_succ_le_succ hlength
      unfold arrangeWithin
      simp only
      split
      · rename_i part hpart _
        have hdirective : s.directives id = some part.directive := by
          unfold directives Line.directive?
          rw [hpart]
          rfl
        split
        · rename_i closer hcloser
          split
          · exact accounts_unmatched hnodup hfresh
          rename_i body stop after hsplit
          obtain rfl := splitAtCloser_eq hsplit
          have hlist : id :: (body ++ stop :: after) = (id :: (body ++ [stop])) ++ after := by simp
          rw [hlist] at hnodup hfresh ⊢
          have hblock : IsBlock s id part closer body stop :=
            ⟨hpart, hcloser, ends_of_splitAtCloser hsplit, hnodup.of_append_left,
              fun j hj => hfresh j (List.mem_append_left _ hj)⟩
          rw [List.length_append, List.length_cons] at hshort
          obtain ⟨htouch, haccounts⟩ := hblock.arrangeBlock_accounts ih (by omega)
          exact accounts_cons ih (by omega) hnodup (fun j hj => hfresh j (List.mem_append_right _ hj)) htouch haccounts
        · rename_i hcloser
          have hmarks : Marks [id] s (if needsBlock part.directive then
              s.fail id part.keyword.span s!"{part.directive.name} without a matching block start" else s) := by
            split
            · exact .fail s id _ _
            · exact .refl _ s
          refine accounts_cons ih hshort hnodup hrest hmarks.touches (accounts_of_marks hid hmarks fun d closer hd hd' => ?_)
          obtain rfl := Option.some.inj (hd.symm.trans hdirective)
          rw [hcloser] at hd'
          cases hd'
      · rename_i hother
        refine accounts_cons ih hshort hnodup hrest (.refl [id] s) (accounts_of_marks hid (.refl [id] s) fun d _ hd _ => ?_)
        -- a line that has not been skipped has no directive here
        obtain ⟨part, hpart, -⟩ := Option.map_eq_some_iff.mp hd
        exact absurd (by simp [Line.isSkipped, hid.1]) (hother part hpart)

theorem filter_of_sublist {kept : List LineId} (h : kept.Sublist ids) (hnodup : ids.Nodup) :
    ids.filter (fun id => decide (id ∈ kept)) = kept := by
  induction h with
  | slnil => rfl
  | @cons kept ids id hsub ih =>
    obtain ⟨hid, hnodup⟩ := List.nodup_cons.mp hnodup
    rw [List.filter_cons_of_neg (by simpa using fun hin => hid (hsub.subset hin)), ih hnodup]
  | @cons_cons kept ids id hsub ih =>
    obtain ⟨hid, hnodup⟩ := List.nodup_cons.mp hnodup
    rw [List.filter_cons_of_pos (by simp), ← ih hnodup]
    refine congrArg (id :: ·) (List.filter_congr fun j hj => ?_)
    have hne : j ≠ id := fun heq => hid (heq ▸ hj)
    simp [hne, hj]

/-- Arranging loses, doubles and reorders nothing. The lines can be read back as they were given, but for
dividers that come after the last branch of their conditional has begun, which have been reported. A block
ends at the first line that ends its family with no block of the family open inside, and a line whose block
was not closed takes no further part. -/
theorem arrange_accounts (s : Assembly) {ids : List LineId} (hnodup : ids.Nodup)
    (hfresh : ∀ id ∈ ids, (s.line id).IsFresh) :
    let (items, s') := s.arrange ids
    ∃ rejected, (s'.readBack items ++ rejected).Perm ids ∧
        s'.readBack items = ids.filter (fun id => decide (id ∉ rejected)) ∧
        (∀ id ∈ rejected, Surplus s.directives ids id ∧ (s'.line id).state = .error) ∧
        (∀ id ∈ ids, ∀ stop, s'.closer? id = some stop → Closes s.directives ids id stop) ∧
        ∀ id ∈ Item.allLines items, ∀ d closer, s.directives id = some d → d.spec.closer = some closer →
          s'.closer? id ≠ none ∨ (s'.line id).isSkipped = true := by
  obtain ⟨htouch, haccounts⟩ := arrangeWithin_accounts ids.length s ids (Nat.le_refl _) hnodup hfresh
  unfold arrange
  generalize arrangeWithin ids.length s ids = result at htouch haccounts ⊢
  obtain ⟨items, s'⟩ := result
  rw [← htouch.directives]
  have hkept := filter_of_sublist haccounts.order hnodup
  refine ⟨ids.filter fun id => !decide (id ∈ s'.readBack items), ?_, ?_, fun id hid => ?_, haccounts.closed,
    haccounts.settled⟩
  · have hparts := List.filter_append_perm (fun id => decide (id ∈ s'.readBack items)) ids
    rwa [hkept] at hparts
  · rw [← hkept]
    refine List.filter_congr fun id hid => ?_
    simp [hid, hkept]
  · obtain ⟨hin, hnot⟩ := List.mem_filter.mp hid
    exact (haccounts.complete id hin).resolve_left fun hread => by simp [hread] at hnot

/-- A conditional in a conditional with a divider after its last branch, and a repetition. -/
def nestedBlocks : Assembly :=
  (loadSource { settings := {}, files := fun _ => .missing } "main.asm"
    ".IF 1\n.IF 2\n.ELSE\n.ENDIF\n.ELSE\n.ELSEIF 0\n.ENDIF\n.REPEAT 2\n.ENDR\n").2

theorem arrange_accounts_nestedBlocks :
    ([0, 1, 2, 3, 4, 5, 6, 7, 8].Nodup ∧ ∀ id ∈ [0, 1, 2, 3, 4, 5, 6, 7, 8], (nestedBlocks.line id).IsFresh) ∧
      ∃ rejected, ([0, 1, 2, 3, 4, 6, 7, 8] ++ rejected).Perm [0, 1, 2, 3, 4, 5, 6, 7, 8] ∧
        ∀ id ∈ rejected, Surplus nestedBlocks.directives [0, 1, 2, 3, 4, 5, 6, 7, 8] id := by
  have hnodup : [0, 1, 2, 3, 4, 5, 6, 7, 8].Nodup := by decide
  have hfresh : ∀ id ∈ [0, 1, 2, 3, 4, 5, 6, 7, 8], (nestedBlocks.line id).IsFresh := by decide +kernel
  obtain ⟨rejected, hall, -, hrejected, -⟩ := arrange_accounts nestedBlocks hnodup hfresh
  have hread : (nestedBlocks.arrange [0, 1, 2, 3, 4, 5, 6, 7, 8]).2.readBack
      (nestedBlocks.arrange [0, 1, 2, 3, 4, 5, 6, 7, 8]).1 = [0, 1, 2, 3, 4, 6, 7, 8] := by decide +kernel
  exact ⟨⟨hnodup, hfresh⟩, rejected, hread ▸ hall, fun id hid => (hrejected id hid).1⟩

end Assembly

end CrossAssembler
