import CrossAssembler.Assembly.Blocks
import Mathlib

/-!
# Where blocks end

Lines are told apart by their directives alone. A block ends at the first line that ends its family while
no block of that family is open inside; a conditional is divided where no conditional is open inside.

Principal results: `ends_of_splitAtCloser`, `divided` — the line that is found ends the block, and the
branches of a conditional are its lines in order, but for surplus dividers.
-/

namespace CrossAssembler

variable {directive? : LineId → Option Directive} {closer : Directive}
variable {id stop : LineId} {ids body after all : List LineId} {depth depth' : Nat} {d : Division}
variable {complete : Bool}

/-! ## Counting -/

/-- Whether a line begins a block of a family. -/
def isOpening (directive? : LineId → Option Directive) (closer : Directive) (id : LineId) : Bool :=
  (directive? id).any fun d => d.opens closer

/-- Whether a line ends a block of a family. -/
def isEnding (directive? : LineId → Option Directive) (closer : Directive) (id : LineId) : Bool :=
  directive? id == some closer

/-- How many lines begin a block of a family. -/
def openings (directive? : LineId → Option Directive) (closer : Directive) (ids : List LineId) : Nat :=
  ids.countP (isOpening directive? closer)

/-- How many lines end a block of a family. -/
def endings (directive? : LineId → Option Directive) (closer : Directive) (ids : List LineId) : Nat :=
  ids.countP (isEnding directive? closer)

/-- Whether a line divides a conditional. -/
def IsDivider (directive? : LineId → Option Directive) (id : LineId) : Prop :=
  directive? id = some .elseWhen ∨ directive? id = some .otherwise

theorem not_opens_self (d : Directive) : d.opens d = false := by cases d <;> rfl

theorem openings_cons (id : LineId) (ids : List LineId) : openings directive? closer (id :: ids) =
      openings directive? closer ids + if isOpening directive? closer id then 1 else 0 := List.countP_cons

theorem endings_cons (id : LineId) (ids : List LineId) : endings directive? closer (id :: ids) =
      endings directive? closer ids + if isEnding directive? closer id then 1 else 0 := List.countP_cons

/-- With some blocks of a family open, every line that ends one of that family ends one of them or one
begun since. -/
def Inside (directive? : LineId → Option Directive) (closer : Directive) (depth : Nat) (ids : List LineId) : Prop :=
  ∀ before id after, ids = before ++ id :: after → isEnding directive? closer id = true →
    endings directive? closer before < depth + openings directive? closer before

theorem Inside.nil (depth : Nat) : Inside directive? closer depth [] := by
  intro before id after h
  simp at h

theorem Inside.cons (h : Inside directive? closer depth' ids)
    (hending : isEnding directive? closer id = true → 0 < depth)
    (hdepth : depth + (if isOpening directive? closer id then 1 else 0) =
      depth' + if isEnding directive? closer id then 1 else 0) :
    Inside directive? closer depth (id :: ids) := by
  intro before other after heq hother
  cases before with
  | nil =>
    obtain ⟨rfl, -⟩ := List.cons.inj heq
    exact Nat.lt_of_lt_of_le (hending hother) (Nat.le_add_right _ _)
  | cons first before =>
    obtain ⟨rfl, hrest⟩ := List.cons.inj heq
    have hlt := h before other after hrest hother
    rw [openings_cons, endings_cons]
    omega

theorem Inside.tail (h : Inside directive? closer depth (id :: ids))
    (hdepth : depth + (if isOpening directive? closer id then 1 else 0) =
      depth' + if isEnding directive? closer id then 1 else 0) :
    Inside directive? closer depth' ids := by
  intro before other after heq hother
  have hall := h (id :: before) other after (by rw [heq]; rfl) hother
  rw [openings_cons, endings_cons] at hall
  omega

/-! ## The end of a block -/

/-- A line ends the block of the lines before it: it is the first to end a block of the family at which as
many blocks were ended as begun. -/
structure Ends (directive? : LineId → Option Directive) (closer : Directive) (inside : List LineId)
    (stop : LineId) : Prop where
  keyword : directive? stop = some closer
  balanced : openings directive? closer inside = endings directive? closer inside
  first : ∀ before id after, inside = before ++ id :: after → directive? id = some closer →
    endings directive? closer before < openings directive? closer before

/-- A block, the line that ends it and the lines after it, with `depth` blocks of its family open inside. -/
structure Cut (directive? : LineId → Option Directive) (closer : Directive) (depth : Nat) (ids body : List LineId)
    (stop : LineId) (after : List LineId) : Prop where
  parts : ids = body ++ stop :: after
  keyword : directive? stop = some closer
  balanced : depth + openings directive? closer body = endings directive? closer body
  inside : Inside directive? closer depth body

theorem Cut.cons
    (h : Cut directive? closer depth' ids body stop after) (hending : isEnding directive? closer id = true → 0 < depth)
    (hdepth : depth + (if isOpening directive? closer id then 1 else 0) =
      depth' + if isEnding directive? closer id then 1 else 0) :
    Cut directive? closer depth (id :: ids) (id :: body) stop after where
  parts := congrArg (id :: ·) h.parts
  keyword := h.keyword
  balanced := by
    have hbalance := h.balanced
    rw [openings_cons, endings_cons]
    omega
  inside := h.inside.cons hending hdepth

theorem cut_of_splitAtCloser (depth : Nat) (ids : List LineId)
    (h : splitAtCloser directive? closer depth ids = some (body, stop, after)) :
    Cut directive? closer depth ids body stop after := by
  have hmapped : ∀ {id : LineId} {rest : List LineId} {depth : Nat} {body : List LineId},
      (splitAtCloser directive? closer depth rest).map (fun found => (id :: found.1, found.2)) =
        some (body, stop, after) →
      ∃ inner, body = id :: inner ∧ splitAtCloser directive? closer depth rest = some (inner, stop, after) := by
    intro id rest depth body hmap
    obtain ⟨⟨inner, stop, after⟩, hsplit, heq⟩ := Option.map_eq_some_iff.mp hmap
    cases heq
    exact ⟨inner, rfl, hsplit⟩
  induction ids generalizing depth body with
  | nil => cases h
  | cons id rest ih =>
    unfold splitAtCloser at h
    split at h
    · rename_i hnone
      obtain ⟨inner, rfl, hsplit⟩ := hmapped h
      exact (ih depth hsplit).cons (by simp [isEnding, hnone]) (by simp [isEnding, isOpening, hnone])
    rename_i d hsome
    split at h
    · rename_i hopens
      have hne : d ≠ closer := by
        rintro rfl
        rw [not_opens_self] at hopens
        cases hopens
      obtain ⟨inner, rfl, hsplit⟩ := hmapped h
      exact (ih (depth + 1) hsplit).cons (by simp [isEnding, hsome, hne])
        (by simp [isEnding, isOpening, hsome, hne, hopens])
    · rename_i hopens
      split at h
      · rename_i heq
        subst heq
        cases depth with
        | zero =>
          cases h
          exact ⟨rfl, hsome, rfl, .nil 0⟩
        | succ depth =>
          obtain ⟨inner, rfl, hsplit⟩ := hmapped h
          exact (ih depth hsplit).cons (fun _ => Nat.succ_pos depth) (by simp [isEnding, isOpening, hsome, hopens])
      · rename_i hne
        obtain ⟨inner, rfl, hsplit⟩ := hmapped h
        exact (ih depth hsplit).cons (by simp [isEnding, hsome, hne])
          (by simp [isEnding, isOpening, hsome, hne, hopens])

theorem ends_of_splitAtCloser
    (h : splitAtCloser directive? closer 0 ids = some (body, stop, after)) : Ends directive? closer body stop := by
  have hcut := cut_of_splitAtCloser 0 ids h
  have hbalance := hcut.balanced
  refine ⟨hcut.keyword, by omega, fun before id after heq hid => ?_⟩
  have hlt := hcut.inside before id after heq (by simp [isEnding, hid])
  omega

/-! ## Lines side by side, but for dividers -/

/-- The first lines are the second ones, but for some dividers that are left out. -/
inductive Thinned (directive? : LineId → Option Directive) : List LineId → List LineId → Prop
  | nil : Thinned directive? [] []
  | keep {ids all : List LineId} (id : LineId) : Thinned directive? ids all → Thinned directive? (id :: ids) (id :: all)
  | leave {ids all : List LineId} {id : LineId} :
      IsDivider directive? id → Thinned directive? ids all → Thinned directive? ids (id :: all)

namespace Thinned

variable {ids all : List LineId} {id : LineId}

theorem refl : ∀ ids, Thinned directive? ids ids
  | [] => .nil
  | id :: ids => .keep id (refl ids)

theorem append {ids' all' : List LineId} (h : Thinned directive? ids all) (h' : Thinned directive? ids' all') :
    Thinned directive? (ids ++ ids') (all ++ all') := by
  induction h with
  | nil => exact h'
  | keep id _ ih => exact .keep id ih
  | leave hdivider _ ih => exact .leave hdivider ih

theorem trans {mid : List LineId} (h : Thinned directive? ids mid) (h' : Thinned directive? mid all) :
    Thinned directive? ids all := by
  induction h' generalizing ids with
  | nil => exact h
  | keep id _ ih =>
    cases h with
    | keep _ h => exact .keep id (ih h)
    | leave hdivider h => exact .leave hdivider (ih h)
  | leave hdivider _ ih => exact .leave hdivider (ih h)

theorem of_append (left : List LineId) {right : List LineId} (h : Thinned directive? (left ++ right) all) :
    ∃ left' right', all = left' ++ right' ∧ Thinned directive? left left' ∧ Thinned directive? right right' := by
  generalize heq : left ++ right = ids at h
  induction h generalizing left with
  | nil =>
    obtain ⟨rfl, rfl⟩ := List.append_eq_nil_iff.mp heq
    exact ⟨[], [], rfl, .nil, .nil⟩
  | @keep ids all id h ih =>
    cases left with
    | nil =>
      rw [List.nil_append] at heq
      exact ⟨[], id :: all, rfl, .nil, heq ▸ .keep id h⟩
    | cons first left =>
      obtain ⟨rfl, hrest⟩ := List.cons.inj heq
      obtain ⟨left', right', rfl, hleft, hright⟩ := ih left hrest
      exact ⟨first :: left', right', rfl, .keep first hleft, hright⟩
  | leave hdivider _ ih =>
    obtain ⟨left', right', rfl, hleft, hright⟩ := ih left heq
    exact ⟨_ :: left', right', rfl, .leave hdivider hleft, hright⟩

theorem of_cons (h : Thinned directive? (id :: ids) all) :
    ∃ left right, all = left ++ id :: right ∧ Thinned directive? [] left ∧ Thinned directive? ids right := by
  generalize heq : id :: ids = kept at h
  induction h with
  | nil => cases heq
  | @keep _ all _ h _ =>
    obtain ⟨rfl, rfl⟩ := List.cons.inj heq
    exact ⟨[], all, rfl, .nil, h⟩
  | leave hdivider _ ih =>
    obtain ⟨left, right, rfl, hleft, hright⟩ := ih heq
    exact ⟨_ :: left, right, rfl, .leave hdivider hleft, hright⟩

theorem split {before after : List LineId} (h : Thinned directive? (before ++ id :: after) all) :
    ∃ before' after', all = before' ++ id :: after' ∧ Thinned directive? before before' ∧
      Thinned directive? after after' := by
  obtain ⟨left, rest, rfl, hleft, hrest⟩ := of_append before h
  obtain ⟨gap, right, rfl, hgap, hright⟩ := of_cons hrest
  refine ⟨left ++ gap, right, (List.append_assoc _ _ _).symm, ?_, hright⟩
  simpa using hleft.append hgap

theorem split_of_kept {before after : List LineId} (h : Thinned directive? ids (before ++ id :: after))
    (hid : ¬ IsDivider directive? id) :
    ∃ before' after', ids = before' ++ id :: after' ∧ Thinned directive? before' before ∧
      Thinned directive? after' after := by
  induction before generalizing ids with
  | nil =>
    cases h with
    | @keep ids _ _ h => exact ⟨[], ids, rfl, .nil, h⟩
    | leave hdivider => exact absurd hdivider hid
  | cons first before ih =>
    cases h with
    | keep _ h =>
      obtain ⟨before', after', rfl, hbefore, hafter⟩ := ih h
      exact ⟨first :: before', after', rfl, .keep first hbefore, hafter⟩
    | leave hdivider h =>
      obtain ⟨before', after', rfl, hbefore, hafter⟩ := ih h
      exact ⟨before', after', rfl, .leave hdivider hbefore, hafter⟩

theorem countP {p : LineId → Bool} (h : Thinned directive? ids all)
    (hp : ∀ id, IsDivider directive? id → p id = false) : ids.countP p = all.countP p := by
  induction h with
  | nil => rfl
  | keep id _ ih => rw [List.countP_cons, List.countP_cons, ih]
  | leave hdivider _ ih => rw [List.countP_cons, hp _ hdivider, ih]; rfl

theorem openings (h : Thinned directive? ids all) (closer : Directive) :
    CrossAssembler.openings directive? closer ids = CrossAssembler.openings directive? closer all := by
  refine h.countP fun id hid => ?_
  unfold isOpening
  rcases hid with hid | hid <;> rw [hid] <;> cases closer <;> rfl

theorem endings (h : Thinned directive? ids all) (hcloser : closer.isCloser = true) :
    CrossAssembler.endings directive? closer ids = CrossAssembler.endings directive? closer all := by
  refine h.countP fun id hid => ?_
  unfold isEnding
  rcases hid with hid | hid <;> rw [hid] <;> cases closer <;> first | rfl | cases hcloser

end Thinned

/-- The first lines stand side by side among the second ones, but for dividers left out between them. -/
def Within (directive? : LineId → Option Directive) (ids all : List LineId) : Prop :=
  ∃ before middle after, all = before ++ (middle ++ after) ∧ Thinned directive? ids middle

namespace Within

theorem of_append (before ids after : List LineId) : Within directive? ids (before ++ (ids ++ after)) :=
  ⟨before, ids, after, rfl, .refl ids⟩

theorem of_cons (id : LineId) (ids : List LineId) : Within directive? ids (id :: ids) :=
  ⟨[id], ids, [], by rw [List.append_nil]; rfl, .refl ids⟩

theorem trans {ids mid all : List LineId} (h : Within directive? ids mid) (h' : Within directive? mid all) :
    Within directive? ids all := by
  obtain ⟨before, middle, after, rfl, hthin⟩ := h
  obtain ⟨before', middle', after', rfl, hthin'⟩ := h'
  obtain ⟨left, rest, rfl, -, hrest⟩ := Thinned.of_append before hthin'
  obtain ⟨middle', right, rfl, hmiddle, -⟩ := Thinned.of_append middle hrest
  exact ⟨before' ++ left, middle', right ++ after', by simp only [List.append_assoc], hthin.trans hmiddle⟩

end Within

theorem isCloser_of_spec {d : Directive} (h : d.spec.closer = some closer) : closer.isCloser = true := by
  refine List.any_eq_true.mpr ⟨d, by cases d <;> simp [Directive.all], ?_⟩
  simp [Directive.opens, h]

theorem Ends.thinned {inside : List LineId} (h : Ends directive? closer inside stop)
    (hcloser : closer.isCloser = true) (hthin : Thinned directive? inside all) : Ends directive? closer all stop where
  keyword := h.keyword
  balanced := by
    rw [← hthin.openings, ← hthin.endings hcloser]
    exact h.balanced
  first before id after heq hid := by
    have hkept : ¬ IsDivider directive? id := by
      rintro (hdivider | hdivider) <;> rw [hid] at hdivider <;> cases hdivider <;> cases hcloser
    rw [heq] at hthin
    obtain ⟨before', after', hsplit, hbefore, -⟩ := hthin.split_of_kept hkept
    rw [← hbefore.openings, ← hbefore.endings hcloser]
    exact h.first before' id after' hsplit hid

/-- Among some lines, one ends the block that another begins. -/
def Closes (directive? : LineId → Option Directive) (ids : List LineId) (id stop : LineId) : Prop :=
  ∃ d closer before inside after, directive? id = some d ∧ d.spec.closer = some closer ∧
    ids = before ++ id :: (inside ++ stop :: after) ∧ Ends directive? closer inside stop

theorem Closes.within (h : Closes directive? ids id stop)
    (hwithin : Within directive? ids all) : Closes directive? all id stop := by
  obtain ⟨d, closer, before, inside, after, hd, hcloser, rfl, hends⟩ := h
  obtain ⟨front, middle, back, rfl, hthin⟩ := hwithin
  obtain ⟨before', rest, rfl, -, hrest⟩ := hthin.split
  obtain ⟨inside', after', rfl, hinside, -⟩ := hrest.split
  refine ⟨d, closer, front ++ before', inside', after' ++ back, hd, hcloser, ?_,
    hends.thinned (isCloser_of_spec hcloser) hinside⟩
  simp only [List.append_assoc, List.cons_append]

/-- Among some lines, one divides a conditional after the branch without a condition has begun: the lines
that begin that branch and divide the conditional again stand in no conditional inside. -/
def Surplus (directive? : LineId → Option Directive) (ids : List LineId) (id : LineId) : Prop :=
  ∃ opener d last stop before inner middle rest after,
    directive? opener = some d ∧ d.isConditional = true ∧ directive? last = some .otherwise ∧ IsDivider directive? id ∧
    ids = before ++ opener :: (inner ++ last :: (middle ++ id :: (rest ++ stop :: after))) ∧
    Ends directive? .endWhen (inner ++ last :: (middle ++ id :: rest)) stop ∧
    openings directive? .endWhen inner = endings directive? .endWhen inner ∧
    openings directive? .endWhen middle = endings directive? .endWhen middle

theorem Surplus.within (h : Surplus directive? ids id)
    (hwithin : Within directive? ids all) : Surplus directive? all id := by
  obtain ⟨opener, d, last, stop, before, inner, middle, rest, after, hd, hconditional, hlast, hid, rfl, hends,
    hinner, hmiddle⟩ := h
  obtain ⟨front, found, back, rfl, hthin⟩ := hwithin
  obtain ⟨before', tail, rfl, -, htail⟩ := hthin.split
  obtain ⟨inner', tail, rfl, hthinInner, htail⟩ := htail.split
  obtain ⟨middle', tail, rfl, hthinMiddle, htail⟩ := htail.split
  obtain ⟨rest', after', rfl, hthinRest, -⟩ := htail.split
  refine ⟨opener, d, last, stop, front ++ before', inner', middle', rest', after' ++ back, hd, hconditional, hlast,
    hid, ?_, hends.thinned rfl (hthinInner.append (.keep last (hthinMiddle.append (.keep id hthinRest)))), ?_, ?_⟩
  · simp only [List.append_assoc, List.cons_append]
  · rw [← hthinInner.openings, ← hthinInner.endings rfl]
    exact hinner
  · rw [← hthinMiddle.openings, ← hthinMiddle.endings rfl]
    exact hmiddle

/-! ## The branches of a conditional -/

/-- Among lines with `depth` conditionals open, a divider stands in none of them and after the branch without
a condition has begun; `complete` tells whether it had before these lines. -/
inductive Late (directive? : LineId → Option Directive) (depth : Nat) (complete : Bool) (ids : List LineId)
    (id : LineId) : Prop
  | before (middle rest : List LineId) : complete = true → ids = middle ++ id :: rest →
      depth + openings directive? .endWhen middle = endings directive? .endWhen middle →
      Late directive? depth complete ids id
  | here (inner : List LineId) (last : LineId) (middle rest : List LineId) : directive? last = some .otherwise →
      ids = inner ++ last :: (middle ++ id :: rest) →
      depth + openings directive? .endWhen inner = endings directive? .endWhen inner →
      openings directive? .endWhen middle = endings directive? .endWhen middle →
      Late directive? depth complete ids id

theorem Late.cons {first : LineId} (h : Late directive? depth' complete ids id)
    (hdepth : depth + (if isOpening directive? .endWhen first then 1 else 0) =
      depth' + if isEnding directive? .endWhen first then 1 else 0) :
    Late directive? depth complete (first :: ids) id := by
  cases h with
  | before middle rest hcomplete hids hmiddle =>
    refine .before (first :: middle) rest hcomplete (congrArg (first :: ·) hids) ?_
    rw [openings_cons, endings_cons]
    omega
  | here inner last middle rest hlast hids hinner hmiddle =>
    refine .here (first :: inner) last middle rest hlast (congrArg (first :: ·) hids) ?_ hmiddle
    rw [openings_cons, endings_cons]
    omega

/-- What a division says about the lines that were divided. -/
structure Divided (directive? : LineId → Option Directive) (depth : Nat) (complete : Bool) (ids : List LineId)
    (d : Division) : Prop where
  first : ∃ middle after, ids = middle ++ after ∧ Thinned directive? d.first middle
  branches : ∀ b ∈ d.branches, IsDivider directive? b.1 ∧ Within directive? b.2 ids
  all : (d.first ++ ((d.branches.flatMap fun b => b.1 :: b.2) ++ d.rejected)).Perm ids
  rejected : ∀ id ∈ d.rejected, IsDivider directive? id ∧ Late directive? depth complete ids id

theorem Divided.cons (h : Divided directive? depth' complete ids d)
    (hdepth : depth + (if isOpening directive? .endWhen id then 1 else 0) =
      depth' + if isEnding directive? .endWhen id then 1 else 0) :
    Divided directive? depth complete (id :: ids) (d.cons id) where
  first := by
    obtain ⟨middle, after, rfl, hthin⟩ := h.first
    exact ⟨id :: middle, after, rfl, .keep id hthin⟩
  branches b hb := ⟨(h.branches b hb).1, (h.branches b hb).2.trans (.of_cons id ids)⟩
  all := h.all.cons id
  rejected j hj := ⟨(h.rejected j hj).1, (h.rejected j hj).2.cons hdepth⟩

theorem Divided.reject
    (h : Divided directive? 0 complete ids d) (hid : IsDivider directive? id) (hcomplete : complete = true)
    (hsame : 0 + (if isOpening directive? .endWhen id then 1 else 0) =
      0 + if isEnding directive? .endWhen id then 1 else 0) :
    Divided directive? 0 complete (id :: ids) { d with rejected := id :: d.rejected } where
  first := by
    obtain ⟨middle, after, rfl, hthin⟩ := h.first
    exact ⟨id :: middle, after, rfl, .leave hid hthin⟩
  branches b hb := ⟨(h.branches b hb).1, (h.branches b hb).2.trans (.of_cons id ids)⟩
  all := by
    rw [← List.append_assoc]
    refine List.perm_middle.trans (.cons id ?_)
    rw [List.append_assoc]
    exact h.all
  rejected j hj := by
    rcases List.mem_cons.mp hj with rfl | hj
    · exact ⟨hid, .before [] ids hcomplete rfl rfl⟩
    · exact ⟨(h.rejected j hj).1, (h.rejected j hj).2.cons hsame⟩

theorem Divided.branch {directive : Directive}
    (h : Divided directive? 0 (directive == .otherwise) ids d) (hid : directive? id = some directive)
    (hdivider : IsDivider directive? id)
    (hsame : 0 + (if isOpening directive? .endWhen id then 1 else 0) =
      0 + if isEnding directive? .endWhen id then 1 else 0) :
    Divided directive? 0 complete (id :: ids) { d with first := [], branches := (id, d.first) :: d.branches } where
  first := ⟨[], id :: ids, rfl, .nil⟩
  branches b hb := by
    rcases List.mem_cons.mp hb with rfl | hb
    · obtain ⟨middle, after, rfl, hthin⟩ := h.first
      exact ⟨hdivider, [id], middle, after, rfl, hthin⟩
    · exact ⟨(h.branches b hb).1, (h.branches b hb).2.trans (.of_cons id ids)⟩
  all := by
    have hall := h.all.cons id
    rw [← List.append_assoc] at hall
    exact hall
  rejected j hj := by
    obtain ⟨hother, hlate⟩ := h.rejected j hj
    refine ⟨hother, ?_⟩
    cases hlate with
    | before middle rest hlast hids hmiddle =>
      rw [beq_iff_eq] at hlast
      exact .here [] id middle rest (hlast ▸ hid) (congrArg (id :: ·) hids) rfl (by omega)
    | here inner last middle rest hlast hids hinner hmiddle =>
      exact Late.cons (.here inner last middle rest hlast hids hinner hmiddle) hsame

/-- The branches of a conditional are its lines in order, but for dividers after the last branch has begun. -/
theorem divided (depth : Nat) (complete : Bool) (ids : List LineId) (hinside : Inside directive? .endWhen depth ids) :
    Divided directive? depth complete ids (divide directive? depth complete ids) := by
  induction ids generalizing depth complete with
  | nil => exact ⟨⟨[], [], rfl, .nil⟩, nofun, .nil, nofun⟩
  | cons id rest ih =>
    -- a line that divides nothing leads to another depth
    have hpass : ∀ depth', (depth + (if isOpening directive? .endWhen id then 1 else 0) =
        depth' + if isEnding directive? .endWhen id then 1 else 0) →
        Divided directive? depth complete (id :: rest) ((divide directive? depth' complete rest).cons id) :=
      fun depth' hdepth => (ih depth' complete (hinside.tail hdepth)).cons hdepth
    unfold divide
    split
    · rename_i hnone
      exact hpass depth (by simp [isOpening, isEnding, hnone])
    rename_i d hsome
    split
    · rename_i hconditional
      have hne : d ≠ .endWhen := by
        rintro rfl
        cases hconditional
      exact hpass (depth + 1) (by simp_all [isOpening, isEnding, Directive.isConditional])
    rename_i hconditional
    split
    · rename_i heq
      have hpos := hinside [] id rest rfl (by simp [isEnding, hsome, heq])
      refine hpass (depth - 1) ?_
      simp_all [isOpening, isEnding, Directive.isConditional, endings, openings]
      omega
    rename_i hending
    have hsame : depth + (if isOpening directive? .endWhen id then 1 else 0) =
        depth + if isEnding directive? .endWhen id then 1 else 0 := by
      simp_all [isOpening, isEnding, Directive.isConditional]
    split
    · rename_i hdivides
      obtain ⟨hdivider, rfl⟩ := hdivides
      have hid : IsDivider directive? id := by
        rcases hdivider with rfl | rfl
        · exact .inl hsome
        · exact .inr hsome
      split
      · rename_i hcomplete
        exact (ih 0 complete (hinside.tail hsame)).reject hid hcomplete hsame
      · exact (ih 0 _ (hinside.tail hsame)).branch hsome hid hsame
    · exact hpass depth hsame

theorem Ends.inside {inside : List LineId} (h : Ends directive? closer inside stop) :
    Inside directive? closer 0 inside := by
  intro before id after heq hid
  rw [isEnding, beq_iff_eq] at hid
  rw [Nat.zero_add]
  exact h.first before id after heq hid

theorem Divided.surplus {opener : LineId} {directive : Directive}
    (h : Divided directive? 0 false body d) (hends : Ends directive? .endWhen body stop)
    (hopener : directive? opener = some directive) (hconditional : directive.isConditional = true)
    (hid : id ∈ d.rejected) : Surplus directive? (opener :: (body ++ [stop])) id := by
  obtain ⟨hdivider, hlate⟩ := h.rejected id hid
  cases hlate with
  | before _ _ hcomplete => cases hcomplete
  | here inner last middle rest hlast hbody hinner hmiddle =>
    subst hbody
    refine ⟨opener, directive, last, stop, [], inner, middle, rest, [], hopener, hconditional, hlast, hdivider, ?_, hends,
      by omega, hmiddle⟩
    simp only [List.nil_append, List.append_assoc, List.cons_append]

end CrossAssembler
