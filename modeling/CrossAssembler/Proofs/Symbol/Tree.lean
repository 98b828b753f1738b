import CrossAssembler.Symbol.LabelTree
import Mathlib

/-!
# What the tree of names says about a name

Names come into the tree and go out of it with the names around them. None of this changes what the tree
says about a name: whether it is defined, and how often it is referred to.

* `marks_ensure`, `marks_prune` — putting names in and taking them out changes nothing.

Principal results: `marks_insert`, `marks_remove`, `marks_addReference`, `marks_releaseReference` — each
operation changes one mark of one name.
-/

namespace CrossAssembler.LabelTree

variable {t : LabelTree}

/-- Whether a name is defined, and how many references to it are counted. -/
def marks (t : LabelTree) (name : String) : Bool × Nat :=
  let node := t.nodes.getD name .bare
  (node.defined, node.references)

theorem isDefined_eq (t : LabelTree) (name : String) : t.isDefined name = (t.marks name).1 := by
  unfold isDefined marks
  rw [Std.TreeMap.getD_eq_getD_getElem?]
  cases t.nodes[name]? <;> rfl

theorem marks_empty (name : String) : empty.marks name = (false, 0) := by
  unfold marks empty
  rw [Std.TreeMap.getD_emptyc]
  rfl

theorem marks_put (nodes : Std.TreeMap String TreeNode) (name other : String) (node : TreeNode) :
    marks ⟨nodes.insert name node⟩ other =
      if other = name then (node.defined, node.references) else marks ⟨nodes⟩ other := by
  unfold marks
  simp only [Std.TreeMap.getD_insert, compare_eq_iff_eq]
  by_cases h : name = other
  · rw [if_pos h, if_pos h.symm]
  · rw [if_neg h, if_neg (Ne.symm h)]

theorem marks_update {name : String} {f : TreeNode → TreeNode} (other : String)
    (hbare : t.nodes[name]? = none → ((f .bare).defined, (f .bare).references) = (false, 0)) :
    (t.update name f).marks other = if other = name then
        let node := f (t.nodes.getD name .bare)
        (node.defined, node.references)
      else t.marks other := by
  unfold update
  cases hnode : t.nodes[name]? with
  | some node =>
    rw [marks_put, Std.TreeMap.getD_eq_getD_getElem?, hnode]
    rfl
  | none =>
    by_cases h : other = name
    · subst h
      rw [if_pos rfl]
      unfold marks
      rw [Std.TreeMap.getD_eq_getD_getElem?, hnode]
      exact (hbare hnode).symm
    · rw [if_neg h]

/-! ## Names that come and go -/

theorem marks_hang (above : List String) (t : LabelTree) (child other : String) :
    (t.hang child above).marks other = t.marks other := by
  induction above generalizing t child with
  | nil => rfl
  | cons parent above ih =>
    unfold hang
    simp only
    rw [ih, marks_put]
    split
    · rename_i heq
      subst heq
      rfl
    · rfl

theorem marks_ensure (t : LabelTree) (name other : String) : (t.ensure name).marks other = t.marks other := by
  unfold ensure
  simp only
  rw [marks_hang, marks_put]
  split
  · rename_i heq
    subst heq
    rfl
  · rfl

theorem mem_hang (above : List String) (t : LabelTree) (child other : String)
    (h : other ∈ t.nodes) : other ∈ (t.hang child above).nodes := by
  induction above generalizing t child with
  | nil => exact h
  | cons parent above ih =>
    unfold hang
    exact ih _ _ (Std.TreeMap.mem_insert.mpr (.inr h))

theorem getElem?_ensure_ne_none (t : LabelTree) (name : String) : (t.ensure name).nodes[name]? ≠ none := by
  have hmem : name ∈ (t.ensure name).nodes := mem_hang _ _ _ _ Std.TreeMap.mem_insert_self
  rw [Std.TreeMap.mem_iff_isSome_getElem?] at hmem
  exact Option.isSome_iff_ne_none.mp hmem

/-- A name is taken out only when nothing is said about it. -/
theorem marks_erase {name : String} {node : TreeNode} (hnode : t.nodes[name]? = some node)
    (hneeded : ¬ node.isNeeded = true) (other : String) :
    marks ⟨t.nodes.erase name⟩ other = t.marks other := by
  unfold marks
  simp only [Std.TreeMap.getD_eq_getD_getElem?, Std.TreeMap.getElem?_erase, compare_eq_iff_eq]
  by_cases h : name = other
  · subst h
    rw [if_pos rfl, hnode]
    simp only [TreeNode.isNeeded, Bool.or_eq_true, not_or, Bool.not_eq_true, bne_eq_false_iff_eq] at hneeded
    obtain ⟨⟨hdefined, hcount⟩, -⟩ := hneeded
    simp only [Option.getD_none, Option.getD_some, hdefined, hcount, TreeNode.bare]
  · rw [if_neg h]

theorem marks_prune (names : List String) (t : LabelTree) (other : String) :
    (t.prune names).marks other = t.marks other := by
  induction names generalizing t with
  | nil => rfl
  | cons name above ih =>
    unfold prune
    cases hnode : t.nodes[name]? with
    | none => rfl
    | some node =>
      simp only
      split
      · rfl
      rename_i hneeded
      have herase := marks_erase hnode hneeded other
      cases above with
      | nil => exact herase
      | cons parent above =>
        simp only
        rw [ih, ← herase, marks_update other fun _ => rfl]
        split
        · rename_i heq
          subst heq
          rfl
        · rfl

/-! ## The operations -/

theorem marks_insert (t : LabelTree) (name other : String) :
    (t.insert name).marks other = if other = name then (true, (t.marks name).2) else t.marks other := by
  unfold insert
  rw [marks_update other fun h => absurd h (getElem?_ensure_ne_none t name), marks_ensure]
  split
  · have hsame := marks_ensure t name name
    unfold marks at hsame ⊢
    simp only [Prod.mk.injEq] at hsame
    simp only [hsame.2]
  · rfl

theorem marks_remove (t : LabelTree) (name other : String) :
    (t.remove name).marks other = if other = name then (false, (t.marks name).2) else t.marks other := by
  unfold remove
  rw [marks_prune, marks_update other fun _ => rfl]
  rfl

theorem marks_addReference (t : LabelTree) (name other : String) : (t.addReference name).marks other =
      if other = name then ((t.marks name).1, (t.marks name).2 + 1) else t.marks other := by
  unfold addReference
  rw [marks_update other fun h => absurd h (getElem?_ensure_ne_none t name), marks_ensure]
  split
  · have hsame := marks_ensure t name name
    unfold marks at hsame ⊢
    simp only [Prod.mk.injEq] at hsame
    simp only [hsame.1, hsame.2]
  · rfl

theorem marks_releaseReference (t : LabelTree) (name other : String) : (t.releaseReference name).marks other =
      if other = name then ((t.marks name).1, (t.marks name).2 - 1) else t.marks other := by
  unfold releaseReference
  rw [marks_prune, marks_update other fun _ => rfl]
  rfl

theorem marks_releaseReferences (names : List String) (t : LabelTree) (other : String) :
    (names.foldl releaseReference t).marks other = ((t.marks other).1, (t.marks other).2 - names.count other) := by
  induction names generalizing t with
  | nil => rfl
  | cons name names ih =>
    rw [List.foldl_cons, ih, marks_releaseReference, List.count_cons]
    by_cases h : other = name
    · subst h
      simp only [if_true, beq_self_eq_true]
      rw [Nat.sub_sub, Nat.add_comm 1]
    · rw [if_neg h, if_neg (by simpa using Ne.symm h), Nat.add_zero]

end CrossAssembler.LabelTree
