import CrossAssembler.Proofs.Symbol.Tree

/-!
# Which names the tree holds

The tree is kept up to date by small changes. Whatever changes came before, it holds the names that are
defined or referred to and the names above them, and nothing else.

Principal result: `tree_after` — names, children, roots and definitions of a tree after any operations.
-/

namespace CrossAssembler

variable {name parent : String}

/-! ## Names above a name -/

theorem length_lt_of_parent (h : parent? name = some parent) : parent.length < name.length := by
  unfold parent? at h
  split at h
  · rename_i c cs after hsplit
    cases h
    unfold Text.splitAtLastDot at hsplit
    split at hsplit
    · rename_i hdot
      simp only [Option.some.injEq, Prod.mk.injEq] at hsplit
      have hnonempty : 0 < name.toList.length := List.length_pos_of_mem (List.elem_iff.mp hdot)
      have htaken := congrArg List.length hsplit.1
      rw [List.length_take] at htaken
      rw [String.length_ofList, ← String.length_toList]
      omega
    · cases hsplit
  · cases h

/-- A bound that is not smaller than the name makes no difference. -/
theorem ancestorsWithin_of_le {n : Nat} (h : name.length ≤ n) : ancestorsWithin n name = ancestors name := by
  have hstep : ∀ {m n : Nat} {name : String}, name.length ≤ m → name.length ≤ n →
      ancestorsWithin m name = ancestorsWithin n name := by
    intro m
    induction m with
    | zero =>
      intro n name hm _
      have hnone : parent? name = none := by
        cases hparent : parent? name with
        | none => rfl
        | some parent => exact absurd (length_lt_of_parent hparent) (by omega)
      cases n with
      | zero => rfl
      | succ n => rw [ancestorsWithin, ancestorsWithin, hnone]
    | succ m ih =>
      intro n name hm hn
      cases hparent : parent? name with
      | none =>
        cases n with
        | zero => rw [ancestorsWithin, ancestorsWithin, hparent]
        | succ n => rw [ancestorsWithin, ancestorsWithin, hparent]
      | some parent =>
        have hlt := length_lt_of_parent hparent
        cases n with
        | zero => omega
        | succ n =>
          rw [ancestorsWithin, ancestorsWithin, hparent]
          exact congrArg (parent :: ·) (ih (by omega) (by omega))
  exact hstep h le_rfl

theorem ancestors_of_parent (h : parent? name = some parent) : ancestors name = parent :: ancestors parent := by
  have hlt := length_lt_of_parent h
  unfold ancestors
  obtain ⟨n, hn⟩ : ∃ n, name.length = n + 1 := ⟨name.length - 1, by omega⟩
  rw [hn, ancestorsWithin, h]
  exact congrArg (parent :: ·) (ancestorsWithin_of_le (by omega))

theorem ancestors_of_root (h : parent? name = none) : ancestors name = [] := by
  unfold ancestors
  cases name.length with
  | zero => rfl
  | succ n => rw [ancestorsWithin, h]

theorem parent_of_ancestors_nil (h : ancestors name = []) : parent? name = none := by
  cases hparent : parent? name with
  | none => rfl
  | some parent =>
    rw [ancestors_of_parent hparent] at h
    cases h

theorem parent_of_ancestors_cons {above : List String}
    (h : ancestors name = parent :: above) : parent? name = some parent ∧ ancestors parent = above := by
  cases hparent : parent? name with
  | none =>
    rw [ancestors_of_root hparent] at h
    cases h
  | some p =>
    rw [ancestors_of_parent hparent, List.cons.injEq] at h
    obtain ⟨rfl, habove⟩ := h
    exact ⟨rfl, habove⟩

/-- The second name is the first one or stands above it. -/
def Above : String → String → Prop := Relation.ReflTransGen fun name parent => parent? name = some parent

namespace LabelTree

variable {t : LabelTree}
variable {name other child : String} {node : TreeNode} {f : TreeNode → TreeNode}
variable {nodes : Std.TreeMap String TreeNode} {idle : Option String}

/-! ## The shape of the tree -/

/-- Every name below another is listed there in order, and nothing else is; the name `loose` may be missing. -/
structure Linked (t : LabelTree) (loose : Option String) : Prop where
  sorted : ∀ name, (t.children name).Pairwise (· < ·)
  sound : ∀ {name child}, child ∈ t.children name → child ∈ t.nodes ∧ parent? child = some name
  complete : ∀ {name child}, child ∈ t.nodes → parent? child = some name → some child ≠ loose →
    child ∈ t.children name

/-- Every name of the tree has to stay in it, with one exception at most. -/
def Needed (t : LabelTree) (idle : Option String) : Prop :=
  ∀ name node, t.nodes[name]? = some node → some name ≠ idle → node.isNeeded = true

theorem mem_insertName {names : List String} : other ∈ insertName name names ↔ other = name ∨ other ∈ names := by
  induction names with
  | nil => simp [insertName]
  | cons n ns ih =>
    unfold insertName
    cases hcompare : compare name n with
    | lt => simp
    | eq =>
      have heq : name = n := compare_eq_iff_eq.mp hcompare
      simp [heq]
    | gt => simp [ih, or_left_comm]

theorem sorted_insertName {names : List String} (name : String) (h : names.Pairwise (· < ·)) :
    (insertName name names).Pairwise (· < ·) := by
  induction names with
  | nil => simp [insertName]
  | cons n ns ih =>
    have hcons := List.pairwise_cons.mp h
    unfold insertName
    cases hcompare : compare name n with
    | lt =>
      have hlt : name < n := compare_lt_iff_lt.mp hcompare
      refine List.pairwise_cons.mpr ⟨fun other hother => ?_, h⟩
      rcases List.mem_cons.mp hother with rfl | hmem
      · exact hlt
      · exact hlt.trans (hcons.1 other hmem)
    | eq => exact h
    | gt =>
      have hgt : n < name := compare_gt_iff_gt.mp hcompare
      refine List.pairwise_cons.mpr ⟨fun other hother => ?_, ih hcons.2⟩
      rcases mem_insertName.mp hother with rfl | hmem
      · exact hgt
      · exact hcons.1 other hmem

theorem mem_iff_getElem? : name ∈ t.nodes ↔ ∃ node, t.nodes[name]? = some node := by
  rw [Std.TreeMap.mem_iff_isSome_getElem?, Option.isSome_iff_exists]

theorem children_of_some (h : t.nodes[name]? = some node) : t.children name = node.children := by
  unfold children
  rw [Std.TreeMap.getD_eq_getD_getElem?, h]
  rfl

theorem mem_of_child (h : child ∈ t.children name) : name ∈ t.nodes := by
  unfold children at h
  rw [Std.TreeMap.getD_eq_getD_getElem?] at h
  cases hnode : t.nodes[name]? with
  | none =>
    rw [hnode] at h
    cases h
  | some node => exact mem_iff_getElem?.mpr ⟨node, hnode⟩

theorem getElem?_put (nodes : Std.TreeMap String TreeNode) (name other : String) (node : TreeNode) :
    (nodes.insert name node)[other]? = if other = name then some node else nodes[other]? := by
  simp only [Std.TreeMap.getElem?_insert, compare_eq_iff_eq, @eq_comm _ other]

theorem children_put (nodes : Std.TreeMap String TreeNode) (name other : String) (node : TreeNode) :
    children ⟨nodes.insert name node⟩ other = if other = name then node.children else children ⟨nodes⟩ other := by
  unfold children
  simp only [Std.TreeMap.getD_eq_getD_getElem?, getElem?_put]
  split <;> rfl

theorem getElem?_update (t : LabelTree) (name other : String) (f : TreeNode → TreeNode) :
    (t.update name f).nodes[other]? = if other = name then (t.nodes[name]?).map f else t.nodes[other]? := by
  unfold update
  cases hnode : t.nodes[name]? with
  | some node => exact getElem?_put t.nodes name other (f node)
  | none =>
    by_cases h : other = name
    · rw [if_pos h, h]
      exact hnode
    · rw [if_neg h]

theorem mem_update : other ∈ (t.update name f).nodes ↔ other ∈ t.nodes := by
  simp only [Std.TreeMap.mem_iff_isSome_getElem?, getElem?_update]
  split
  · rename_i heq
    rw [Option.isSome_map, heq]
  · rfl

theorem children_update (name other : String) (hbare : (f .bare).children = []) : (t.update name f).children other =
      if other = name then (f (t.nodes.getD name .bare)).children else t.children other := by
  unfold children
  simp only [Std.TreeMap.getD_eq_getD_getElem?, getElem?_update]
  split
  · cases t.nodes[name]? with
    | none => exact hbare.symm
    | some node => rfl
  · rfl

theorem Linked.congr {t' : LabelTree} {loose : Option String} (h : t.Linked loose)
    (hchildren : ∀ name, t'.children name = t.children name) (hmem : ∀ name, name ∈ t'.nodes ↔ name ∈ t.nodes) :
    t'.Linked loose where
  sorted name := hchildren name ▸ h.sorted name
  sound hchild := by
    rw [hchildren] at hchild
    rw [hmem]
    exact h.sound hchild
  complete hin hparent hloose := by
    rw [hchildren]
    exact h.complete ((hmem _).mp hin) hparent hloose

/-! ## Putting names in -/

/-- The loose end moves up with every name that is hung. -/
theorem Linked.hang (above : List String) (habove : ancestors child = above)
    (h : t.Linked (some child)) (hchild : child ∈ t.nodes) : (t.hang child above).Linked none := by
  induction above generalizing t child with
  | nil =>
    refine ⟨h.sorted, h.sound, fun {name other} hin hparent _ => h.complete hin hparent fun heq => ?_⟩
    rw [Option.some.inj heq, parent_of_ancestors_nil habove] at hparent
    cases hparent
  | cons parent above ih =>
    obtain ⟨hparent, habove⟩ := parent_of_ancestors_cons habove
    rw [LabelTree.hang]
    refine ih habove ⟨fun name => ?_, fun {name other} hother => ?_, fun {name other} hin hother hloose => ?_⟩
      Std.TreeMap.mem_insert_self
    · rw [children_put]
      split
      · exact sorted_insertName child (h.sorted parent)
      · exact h.sorted name
    · rw [children_put] at hother
      have hold : other = child ∧ name = parent ∨ other ∈ t.children name := by
        split at hother
        · rename_i heq
          subst heq
          exact (mem_insertName.mp hother).imp_left fun heq => ⟨heq, rfl⟩
        · exact .inr hother
      rcases hold with ⟨rfl, rfl⟩ | hold
      · exact ⟨Std.TreeMap.mem_insert.mpr (.inr hchild), hparent⟩
      · exact ⟨Std.TreeMap.mem_insert.mpr (.inr (h.sound hold).1), (h.sound hold).2⟩
    · have hne : other ≠ parent := fun heq => hloose (congrArg some heq)
      have hin : other ∈ t.nodes := (Std.TreeMap.mem_insert.mp hin).resolve_left
        fun heq => hne (compare_eq_iff_eq.mp heq).symm
      rw [children_put]
      by_cases hself : other = child
      · subst hself
        rw [hparent] at hother
        rw [if_pos (Option.some.inj hother).symm]
        exact mem_insertName.mpr (.inl rfl)
      · have hlisted := h.complete hin hother fun heq => hself (Option.some.inj heq)
        split
        · rename_i heq
          subst heq
          exact mem_insertName.mpr (.inr hlisted)
        · exact hlisted

theorem Needed.put (h : Needed ⟨nodes⟩ idle) (hnode : some name ≠ idle → node.isNeeded = true) :
    Needed ⟨nodes.insert name node⟩ idle := by
  intro other found hfound hidle
  rw [getElem?_put] at hfound
  split at hfound
  · rename_i heq
    cases hfound
    exact hnode (heq ▸ hidle)
  · exact h other found hfound hidle

/-- The exception is none when that name has to stay as well. -/
theorem Needed.all (h : t.Needed (some name))
    (hname : ∀ node, t.nodes[name]? = some node → node.isNeeded = true) : t.Needed none := by
  intro other node hnode _
  by_cases heq : other = name
  · exact hname node (heq ▸ hnode)
  · exact h other node hnode fun hidle => heq (Option.some.inj hidle)

theorem children_of_idle (hnode : t.nodes[name]? = some node)
    (hidle : ¬ node.isNeeded = true) : t.children name = [] := by
  rw [children_of_some hnode]
  simp only [TreeNode.isNeeded, Bool.or_eq_true, not_or, Bool.not_eq_true, Bool.not_eq_false', List.isEmpty_iff] at hidle
  exact hidle.2

theorem Needed.hang (above : List String) (child : String) (h : t.Needed idle) :
    (t.hang child above).Needed idle := by
  induction above generalizing t child with
  | nil => exact h
  | cons parent above ih =>
    rw [LabelTree.hang]
    refine ih parent (h.put fun _ => ?_)
    have hlisted : child ∈ insertName child (t.nodes.getD parent .bare).children := mem_insertName.mpr (.inl rfl)
    simp only [TreeNode.isNeeded, List.isEmpty_eq_false_iff_exists_mem.mpr ⟨child, hlisted⟩, Bool.not_false,
      Bool.or_true]

theorem Linked.ensure (h : t.Linked none) (name : String) : (t.ensure name).Linked none := by
  refine Linked.hang _ rfl ⟨fun other => ?_, fun {above child} hchild => ?_, fun {above child} hin hparent hloose => ?_⟩
    Std.TreeMap.mem_insert_self
  all_goals
    have hsame : ∀ other, children ⟨t.nodes.insert name (t.nodes.getD name .bare)⟩ other = t.children other := by
      intro other
      rw [children_put]
      split
      · rename_i heq
        rw [heq]
        rfl
      · rfl
  · rw [hsame]
    exact h.sorted other
  · rw [hsame] at hchild
    exact ⟨Std.TreeMap.mem_insert.mpr (.inr (h.sound hchild).1), (h.sound hchild).2⟩
  · rw [hsame]
    refine h.complete ((Std.TreeMap.mem_insert.mp hin).resolve_left fun heq => hloose ?_) hparent nofun
    rw [compare_eq_iff_eq.mp heq]

theorem Needed.ensure (h : t.Needed none) (name : String) : (t.ensure name).Needed (some name) :=
  Needed.hang _ name (Needed.put (fun other node hnode _ => h other node hnode nofun) fun hidle => absurd rfl hidle)

/-! ## Taking names out -/

theorem getElem?_erase_node (nodes : Std.TreeMap String TreeNode) (name other : String) :
    (nodes.erase name)[other]? = if other = name then none else nodes[other]? := by
  simp only [Std.TreeMap.getElem?_erase, compare_eq_iff_eq, @eq_comm _ other]

theorem children_erase_node (hleaf : children ⟨nodes⟩ name = []) (other : String) :
    children ⟨nodes.erase name⟩ other = children ⟨nodes⟩ other := by
  by_cases h : other = name
  · subst h
    rw [hleaf]
    unfold children
    rw [Std.TreeMap.getD_eq_getD_getElem?, getElem?_erase_node, if_pos rfl]
    rfl
  · unfold children
    simp only [Std.TreeMap.getD_eq_getD_getElem?, getElem?_erase_node, if_neg h]

theorem filter_children (h : t.Linked none) (hparent : parent? name ≠ some other) :
    (t.children other).filter (· != name) = t.children other := by
  rw [List.filter_eq_self]
  intro child hchild
  simp only [bne_iff_ne, ne_eq]
  rintro rfl
  exact hparent (h.sound hchild).2

theorem mem_erase_node : other ∈ nodes.erase name ↔ other ∈ nodes ∧ other ≠ name := by
  rw [Std.TreeMap.mem_erase, and_comm, ne_eq, ne_eq, compare_eq_iff_eq, @eq_comm _ name]

theorem prune_of_needed (above : List String)
    (h : ∀ node, t.nodes[name]? = some node → node.isNeeded = true) : t.prune (name :: above) = t := by
  unfold prune
  cases hnode : t.nodes[name]? with
  | none => rfl
  | some node => exact if_pos (h node hnode)

/-- The tree without a name. -/
def dropName (t : LabelTree) (name : String) : LabelTree :=
  match parent? name with
  | none => ⟨t.nodes.erase name⟩
  | some parent =>
    LabelTree.update ⟨t.nodes.erase name⟩ parent fun p => { p with children := p.children.filter (· != name) }

theorem prune_of_idle (hnode : t.nodes[name]? = some node)
    (hidle : ¬ node.isNeeded = true) : t.prune (name :: ancestors name) = (t.dropName name).prune (ancestors name) := by
  rw [prune, hnode]
  simp only [if_neg hidle, dropName]
  cases hparent : parent? name with
  | none => rw [ancestors_of_root hparent, prune]
  | some parent => rw [ancestors_of_parent hparent]

theorem getElem?_dropName (h : parent? name ≠ some other) :
    (t.dropName name).nodes[other]? = if other = name then none else t.nodes[other]? := by
  unfold dropName
  cases hparent : parent? name with
  | none => exact getElem?_erase_node t.nodes name other
  | some parent =>
    have hne : other ≠ parent := fun heq => h (by rw [hparent, heq])
    simp only [getElem?_update, if_neg hne]
    exact getElem?_erase_node t.nodes name other

theorem mem_dropName : other ∈ (t.dropName name).nodes ↔ other ∈ t.nodes ∧ other ≠ name := by
  unfold dropName
  split
  · exact mem_erase_node
  · exact mem_update.trans mem_erase_node

theorem children_dropName (hl : t.Linked none) (hleaf : t.children name = []) (other : String) :
    (t.dropName name).children other = (t.children other).filter (· != name) := by
  have herase : ∀ other, children ⟨t.nodes.erase name⟩ other = t.children other := children_erase_node hleaf
  by_cases h : parent? name = some other
  · unfold dropName
    simp only [h]
    rw [children_update other other rfl, if_pos rfl]
    exact congrArg (List.filter (· != name)) (herase other)
  · rw [filter_children hl h, ← herase other]
    unfold dropName
    split
    · rfl
    · rename_i parent hparent
      rw [children_update parent other rfl, if_neg fun heq => h (by rw [hparent, heq])]

theorem Linked.dropName (hl : t.Linked none) (hleaf : t.children name = []) : (t.dropName name).Linked none where
  sorted other := by
    rw [children_dropName hl hleaf]
    exact (hl.sorted other).filter _
  sound {above child} hchild := by
    rw [children_dropName hl hleaf, List.mem_filter] at hchild
    exact ⟨mem_dropName.mpr ⟨(hl.sound hchild.1).1, by simpa using hchild.2⟩, (hl.sound hchild.1).2⟩
  complete {above child} hin hparent _ := by
    obtain ⟨hold, hne⟩ := mem_dropName.mp hin
    rw [children_dropName hl hleaf, List.mem_filter]
    exact ⟨hl.complete hold hparent nofun, by simpa using hne⟩

/-- Only the name above the one that goes may be idle after that. -/
theorem Needed.dropName (hn : t.Needed (some name)) : (t.dropName name).Needed (parent? name) := by
  intro other node hnode hidle
  rw [getElem?_dropName (Ne.symm hidle)] at hnode
  split at hnode
  · cases hnode
  · rename_i hne
    exact hn other node hnode fun heq => hne (Option.some.inj heq)

/-- A name and the names above it. -/
def upwards : Option String → List String
  | none => []
  | some name => name :: ancestors name

theorem ancestors_eq_upwards (name : String) : ancestors name = upwards (parent? name) := by
  cases hparent : parent? name with
  | none => exact ancestors_of_root hparent
  | some parent => exact ancestors_of_parent hparent

/-- Taking out starts at the one name that may be idle and goes on with the name above it, until a name
has to stay or no name is left. -/
theorem shape_prune (names : List String) (hnames : names = upwards idle)
    (hl : t.Linked none) (hn : t.Needed idle) : (t.prune names).Linked none ∧ (t.prune names).Needed none := by
  induction names generalizing t idle with
  | nil =>
    cases idle with
    | none => exact ⟨hl, hn⟩
    | some name => cases hnames
  | cons name above ih =>
    cases idle with
    | none => cases hnames
    | some idle =>
      obtain ⟨rfl, rfl⟩ := List.cons.inj hnames
      by_cases hneeded : ∀ node, t.nodes[name]? = some node → node.isNeeded = true
      · rw [prune_of_needed _ hneeded]
        exact ⟨hl, hn.all hneeded⟩
      · push Not at hneeded
        obtain ⟨node, hnode, hidle⟩ := hneeded
        rw [prune_of_idle hnode (by simpa using hidle)]
        exact ih (ancestors_eq_upwards name) (hl.dropName (children_of_idle hnode (by simpa using hidle))) hn.dropName

/-! ## Operations -/

theorem Linked.update {loose : Option String} (h : t.Linked loose) (name : String)
    (hf : ∀ node, (f node).children = node.children) : (t.update name f).Linked loose := by
  refine h.congr (fun other => ?_) fun other => mem_update
  rw [children_update name other (hf .bare)]
  split
  · rename_i heq
    rw [heq]
    exact hf _
  · rfl

theorem Needed.update (h : t.Needed (some name)) : (t.update name f).Needed (some name) := by
  intro other node hnode hidle
  have hne : other ≠ name := fun heq => hidle (congrArg some heq)
  rw [getElem?_update, if_neg hne] at hnode
  exact h other node hnode hidle

theorem Needed.update_all (h : t.Needed (some name))
    (hf : ∀ node, (f node).isNeeded = true) : (t.update name f).Needed none := by
  refine h.update.all fun node hnode => ?_
  rw [getElem?_update, if_pos rfl, Option.map_eq_some_iff] at hnode
  obtain ⟨old, -, rfl⟩ := hnode
  exact hf old

/-- What can be done to a tree. -/
inductive Operation where
  | insert (name : String)
  | remove (name : String)
  | addReference (name : String)
  | releaseReference (name : String)
  deriving DecidableEq, Repr

/-- The tree after an operation. -/
def Operation.apply (t : LabelTree) : Operation → LabelTree
  | insert name => t.insert name
  | remove name => t.remove name
  | addReference name => t.addReference name
  | releaseReference name => t.releaseReference name

/-- The tree after some operations. -/
def run (ops : List Operation) : LabelTree := ops.foldl Operation.apply empty

theorem run_append_one (ops : List Operation) (op : Operation) : run (ops ++ [op]) = op.apply (run ops) := by
  unfold run
  rw [List.foldl_append]
  rfl

/-- One operation keeps the shape of the tree. -/
theorem shape_apply (op : Operation) (hl : t.Linked none) (hn : t.Needed none) :
    (op.apply t).Linked none ∧ (op.apply t).Needed none := by
  have hidle : ∀ name, t.Needed (some name) := fun name other node hnode _ => hn other node hnode nofun
  cases op with
  | insert name =>
    exact ⟨(hl.ensure name).update name fun _ => rfl, (hn.ensure name).update_all fun _ => by
      simp [TreeNode.isNeeded]⟩
  | remove name => exact shape_prune _ rfl (hl.update name fun _ => rfl) (hidle name).update
  | addReference name =>
    exact ⟨(hl.ensure name).update name fun _ => rfl, (hn.ensure name).update_all fun _ => by
      simp [TreeNode.isNeeded]⟩
  | releaseReference name => exact shape_prune _ rfl (hl.update name fun _ => rfl) (hidle name).update

theorem shape_run (ops : List Operation) : (run ops).Linked none ∧ (run ops).Needed none := by
  induction ops using List.reverseRecOn with
  | nil =>
    have hbare : ∀ name, empty.children name = [] := by
      intro name
      unfold children empty
      rw [Std.TreeMap.getD_emptyc]
      rfl
    refine ⟨⟨fun name => hbare name ▸ .nil, fun {name child} hchild => ?_, fun hin => ?_⟩, fun name node hnode => ?_⟩
    · rw [run, List.foldl_nil, hbare] at hchild
      cases hchild
    · exact absurd hin Std.TreeMap.not_mem_emptyc
    · have hnone : empty.nodes[name]? = none := Std.TreeMap.getElem?_emptyc
      rw [run, List.foldl_nil, hnone] at hnode
      cases hnode
  | append_singleton ops op ih =>
    rw [run_append_one]
    exact shape_apply op ih.1 ih.2

/-! ## What the operations say -/

/-- The name an operation defines or forgets. -/
def Operation.settles? : Operation → Option String
  | insert name | remove name => some name
  | _ => none

/-- Whether the last of some operations that defined or forgot a name defined it. -/
def definedAfter (ops : List Operation) (name : String) : Bool :=
  ops.reverse.find? (fun op => op.settles? = some name) = some (.insert name)

/-- The references to a name after an operation, none of which can be taken back before it is counted. -/
def Operation.count (name : String) (n : Nat) : Operation → Nat
  | addReference other => if other = name then n + 1 else n
  | releaseReference other => if other = name then n - 1 else n
  | _ => n

/-- The references to a name after some operations. -/
def countAfter (ops : List Operation) (name : String) : Nat := ops.foldl (Operation.count name) 0

theorem definedAfter_append (ops : List Operation) (op : Operation) (name : String) :
    definedAfter (ops ++ [op]) name =
      if op.settles? = some name then decide (op = .insert name) else definedAfter ops name := by
  unfold definedAfter
  rw [List.reverse_append, List.reverse_singleton, List.singleton_append, List.find?_cons]
  by_cases h : op.settles? = some name
  · simp only [h, decide_true, if_true, Option.some.injEq]
  · simp only [h, decide_false, if_false]

theorem countAfter_append (ops : List Operation) (op : Operation) (name : String) :
    countAfter (ops ++ [op]) name = op.count name (countAfter ops name) := by
  unfold countAfter
  rw [List.foldl_append]
  rfl

/-- The tree says about a name what the operations say. -/
theorem marks_run (ops : List Operation) (name : String) :
    (run ops).marks name = (definedAfter ops name, countAfter ops name) := by
  induction ops using List.reverseRecOn with
  | nil => exact marks_empty name
  | append_singleton ops op ih =>
    rw [run_append_one, definedAfter_append, countAfter_append]
    cases op with
    | insert other =>
      simp only [Operation.apply, marks_insert, Operation.settles?, Operation.count, Option.some.injEq]
      by_cases h : name = other
      · subst h
        simp [ih]
      · simp [h, Ne.symm h, ih]
    | remove other =>
      simp only [Operation.apply, marks_remove, Operation.settles?, Operation.count, Option.some.injEq]
      by_cases h : name = other
      · subst h
        simp [ih]
      · simp [h, Ne.symm h, ih]
    | addReference other =>
      simp only [Operation.apply, marks_addReference, Operation.settles?, Operation.count]
      by_cases h : name = other
      · subst h
        simp [ih]
      · simp [h, Ne.symm h, ih]
    | releaseReference other =>
      simp only [Operation.apply, marks_releaseReference, Operation.settles?, Operation.count]
      by_cases h : name = other
      · subst h
        simp [ih]
      · simp [h, Ne.symm h, ih]

/-! ## Names in the tree -/

theorem contains_iff : t.contains name = true ↔ name ∈ t.nodes := Std.TreeMap.contains_iff_mem

theorem mem_of_marks (h : t.marks name ≠ (false, 0)) : name ∈ t.nodes := by
  unfold marks at h
  rw [Std.TreeMap.getD_eq_getD_getElem?] at h
  cases hnode : t.nodes[name]? with
  | none =>
    rw [hnode] at h
    exact absurd rfl h
  | some node => exact mem_iff_getElem?.mpr ⟨node, hnode⟩

theorem mem_children (hl : t.Linked none) : child ∈ t.children name ↔ child ∈ t.nodes ∧ parent? child = some name :=
  ⟨hl.sound, fun h => hl.complete h.1 h.2 nofun⟩

theorem mem_of_above (hl : t.Linked none) {above : String} (h : Above name above) (hname : name ∈ t.nodes) :
    above ∈ t.nodes := by
  induction h with
  | refl => exact hname
  | tail _ hparent ih => exact mem_of_child ((mem_children hl).mpr ⟨ih, hparent⟩)

/-- Below a name of the tree there is one that is defined or referred to. Going down ends, since the names
get longer. -/
theorem exists_marked (hl : t.Linked none) (hn : t.Needed none) {bound : Nat}
    (hbound : ∀ name ∈ t.nodes, name.length ≤ bound) (hname : name ∈ t.nodes) :
    ∃ user, t.marks user ≠ (false, 0) ∧ Above user name := by
  obtain ⟨steps, hsteps⟩ : ∃ steps, bound - name.length ≤ steps := ⟨_, le_rfl⟩
  induction steps using Nat.strongRecOn generalizing name with
  | _ steps ih =>
    obtain ⟨node, hnode⟩ := mem_iff_getElem?.mp hname
    by_cases hmarks : t.marks name = (false, 0)
    · have hchildren : ∃ child, child ∈ t.children name := by
        have hneeded := hn name node hnode nofun
        unfold marks at hmarks
        rw [Std.TreeMap.getD_eq_getD_getElem?, hnode] at hmarks
        simp only [Option.getD_some, Prod.mk.injEq] at hmarks
        rw [children_of_some hnode]
        refine List.exists_mem_of_ne_nil _ fun hempty => ?_
        simp [TreeNode.isNeeded, hmarks, hempty] at hneeded
      obtain ⟨child, hchild⟩ := hchildren
      obtain ⟨hin, hparent⟩ := (mem_children hl).mp hchild
      have hlonger := length_lt_of_parent hparent
      have hshort := hbound child hin
      obtain ⟨user, hused, habove⟩ := ih (bound - child.length) (by omega) hin le_rfl
      exact ⟨user, hused, habove.tail hparent⟩
    · exact ⟨name, hmarks, .refl⟩

theorem exists_bound (t : LabelTree) : ∃ bound, ∀ name ∈ t.nodes, name.length ≤ bound := by
  obtain ⟨bound, hbound⟩ := (t.nodes.keys.map String.length).toFinset.exists_le
  refine ⟨bound, fun name hname => hbound _ (List.mem_toFinset.mpr ?_)⟩
  exact List.mem_map.mpr ⟨name, Std.TreeMap.mem_keys.mpr hname, rfl⟩

theorem sorted_roots (t : LabelTree) : t.roots.Pairwise (· < ·) := by
  refine (Std.TreeMap.ordered_keys.imp fun h => ?_).filter _
  exact compare_lt_iff_lt.mp h

theorem mem_roots : name ∈ t.roots ↔ name ∈ t.nodes ∧ parent? name = none := by
  unfold roots
  rw [List.mem_filter, Std.TreeMap.mem_keys, Option.isNone_iff_eq_none]

/-- Whether a name is defined or referred to after some operations. -/
def InUse (ops : List Operation) (name : String) : Prop :=
  definedAfter ops name = true ∨ 0 < countAfter ops name

theorem inUse_iff {ops : List Operation} : InUse ops name ↔ (run ops).marks name ≠ (false, 0) := by
  rw [marks_run, ne_eq, Prod.mk.injEq, not_and_or, Bool.not_eq_false, InUse, Nat.pos_iff_ne_zero]

/-- After any operations the tree holds the names in use and those above them, every name lists the names
below it in order, the roots are the names below none, and the last word on a name tells whether it is
defined. -/
theorem tree_after (ops : List Operation) (name : String) :
    ((run ops).contains name = true ↔ ∃ user, InUse ops user ∧ Above user name) ∧
      ((run ops).children name).Pairwise (· < ·) ∧
      (∀ child, child ∈ (run ops).children name ↔ (run ops).contains child = true ∧ parent? child = some name) ∧
      (run ops).roots.Pairwise (· < ·) ∧
      (name ∈ (run ops).roots ↔ (run ops).contains name = true ∧ parent? name = none) ∧
      (run ops).isDefined name = definedAfter ops name := by
  obtain ⟨hl, hn⟩ := shape_run ops
  obtain ⟨bound, hbound⟩ := exists_bound (run ops)
  refine ⟨⟨fun hin => ?_, ?_⟩, hl.sorted name, fun child => ?_, sorted_roots _, ?_, ?_⟩
  · obtain ⟨user, hused, habove⟩ := exists_marked hl hn hbound (contains_iff.mp hin)
    exact ⟨user, inUse_iff.mpr hused, habove⟩
  · rintro ⟨user, hused, habove⟩
    exact contains_iff.mpr (mem_of_above hl habove (mem_of_marks (inUse_iff.mp hused)))
  · rw [contains_iff]
    exact mem_children hl
  · rw [contains_iff]
    exact mem_roots
  · rw [isDefined_eq, marks_run]

/-- A name may have dots side by side: it hangs below the name up to the last of them. -/
example : (run [.insert "a..b", .addReference "a.c", .remove "a..b"]).children "a" = ["a.c"] := by decide

end LabelTree

end CrossAssembler
