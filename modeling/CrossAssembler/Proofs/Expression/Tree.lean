import CrossAssembler.Proofs.Expression.Running

/-!
# Expressions as trees

Principal results: `order_written` — putting a written tree in order gives the tree's own order;
`evaluate_postorder` — working off that order gives the value of the tree.
-/

namespace CrossAssembler.Expression

variable {p : Nat}

/-- A literal or a reference. -/
inductive Leaf where
  | number (n : Number)
  | string (text : String)
  | label (reference : Reference)

/-- What kind of part a leaf is. -/
def Leaf.kind : Leaf → Part.Kind
  | number n => .number n
  | string text => .string text
  | label reference => .label reference

/-- An expression as it is meant, with the places of its leaves and operators in the text. -/
inductive Tree where
  | leaf (l : Leaf) (start stop : Nat)
  | unary (op : UnaryOp) (start stop : Nat) (operand : Tree)
  | binary (op : BinaryOp) (start stop : Nat) (left right : Tree)

/-- The outcome of a computation that goes on only with a value. -/
def withValue (first : Except Error Outcome) (next : Value → Except Error Outcome) : Except Error Outcome :=
  match first with
  | .ok (.resolved v) => next v
  | other => other

namespace Tree

/-- The parts of a tree with every operator after its operands. -/
def postorder : Tree → List Part
  | leaf l start stop => [⟨l.kind, start, stop⟩]
  | unary op start stop t => t.postorder ++ [⟨.unary op, start, stop⟩]
  | binary op start stop l r => l.postorder ++ r.postorder ++ [⟨.binary op, start, stop⟩]

/-- The value of a tree, from left to right: the first label without a value or the first error stops it. -/
def evaluate (resolve : Resolver) (mode : Mode) : Tree → Except Error Outcome
  | leaf (.number n) _ _ => .ok (.resolved (.number n))
  | leaf (.string text) _ _ => .ok (.resolved (.string text))
  | leaf (.label reference) start stop =>
    match resolve reference start stop, mode with
    | some v, _ => .ok (.resolved v)
    | none, .tentative => .ok (.pending reference.text start stop)
    | none, .final => .error (.unresolved reference.text start stop)
  | unary op _ _ t => withValue (t.evaluate resolve mode) fun v => (op.apply v).map .resolved
  | binary op _ _ l r =>
    withValue (l.evaluate resolve mode) fun v =>
      withValue (r.evaluate resolve mode) fun w => (op.apply v w).map .resolved

end Tree

/-- The ways to write a tree where only operators of some precedence or a higher one may stand without
brackets. An operator groups to the left: on its right side the precedence must be higher than its own. -/
inductive Written : Nat → Tree → List Part → Prop
  | leaf {p : Nat} (l : Leaf) (start stop : Nat) : Written p (.leaf l start stop) [⟨l.kind, start, stop⟩]
  | brackets {p : Nat} {t : Tree} {parts : List Part} (start stop start' stop' : Nat) :
      Written 0 t parts → Written p t (⟨.opening, start, stop⟩ :: parts ++ [⟨.closing, start', stop'⟩])
  | unary {p : Nat} {t : Tree} {parts : List Part} (op : UnaryOp) (start stop : Nat) :
      Written op.precedence t parts → Written p (.unary op start stop t) (⟨.unary op, start, stop⟩ :: parts)
  | binary {p : Nat} {l r : Tree} {left right : List Part} (op : BinaryOp) (start stop : Nat) :
      p ≤ op.precedence → Written op.precedence l left → Written (op.precedence + 1) r right →
        Written p (.binary op start stop l r) (left ++ ⟨.binary op, start, stop⟩ :: right)

/-! ## The order of a written tree -/

section Ordering

variable {part : Part} {stack rest : List Part}

theorem orderFrom_leaf (l : Leaf) (start stop : Nat) : orderFrom stack (⟨l.kind, start, stop⟩ :: rest) =
      (orderFrom stack rest).map (⟨l.kind, start, stop⟩ :: ·) := by
  cases l <;> rfl

theorem orderFrom_opening (start stop : Nat) :
    orderFrom stack (⟨.opening, start, stop⟩ :: rest) = orderFrom (⟨.opening, start, stop⟩ :: stack) rest := rfl

theorem orderFrom_unary (op : UnaryOp) (start stop : Nat) :
    orderFrom stack (⟨.unary op, start, stop⟩ :: rest) = orderFrom (⟨.unary op, start, stop⟩ :: stack) rest := rfl

theorem orderFrom_binary (op : BinaryOp) (start stop : Nat) : orderFrom stack (⟨.binary op, start, stop⟩ :: rest) =
      (orderFrom (⟨.binary op, start, stop⟩ :: stack.dropWhile (releasedBy op.precedence)) rest).map
        (stack.takeWhile (releasedBy op.precedence) ++ ·) := rfl

theorem orderFrom_closing {waiting : List Part} (h : ∀ w ∈ waiting, w.isOpening = false)
    (start stop start' stop' : Nat) :
    orderFrom (waiting ++ ⟨.opening, start, stop⟩ :: stack) (⟨.closing, start', stop'⟩ :: rest) =
      (orderFrom stack rest).map (waiting ++ ·) := by
  have hall : ∀ w ∈ waiting, (!w.isOpening) = true := fun w hw => by rw [h w hw]; rfl
  have hdrop : (waiting ++ ⟨.opening, start, stop⟩ :: stack).dropWhile (fun p => !p.isOpening) =
      ⟨.opening, start, stop⟩ :: stack := by
    rw [List.dropWhile_append_of_pos hall]
    rfl
  have htake : (waiting ++ ⟨.opening, start, stop⟩ :: stack).takeWhile (fun p => !p.isOpening) = waiting := by
    rw [List.takeWhile_append_of_pos hall]
    exact List.append_nil waiting
  rw [orderFrom]
  simp only [hdrop, htake]

theorem release_of_no_opening {waiting : List Part} (h : ∀ w ∈ waiting, w.isOpening = false) :
    release waiting = .ok waiting := by
  induction waiting with
  | nil => rfl
  | cons w waiting ih =>
    obtain ⟨hw, hwaiting⟩ := List.forall_mem_cons.mp h
    rw [release, hw, ih hwaiting]
    rfl

end Ordering

theorem map_map_append (x : Except Error (List Part)) (xs ys : List Part) :
    (x.map (ys ++ ·)).map (xs ++ ·) = x.map (xs ++ ys ++ ·) := by
  cases x with
  | error e => rfl
  | ok zs => simp [Except.map]

/-- What is left waiting after a tree: operators that any operator releases which may follow the tree. -/
def Waits (p : Nat) (waiting : List Part) : Prop :=
  ∀ w ∈ waiting, w.isOpening = false ∧ ∀ op : BinaryOp, op.precedence ≤ p → releasedBy op.precedence w = true

theorem Waits.append {xs ys : List Part} (hx : Waits p xs) (hy : Waits p ys) : Waits p (xs ++ ys) :=
  fun w hw => (List.mem_append.mp hw).elim (hx w) (hy w)

theorem Waits.mono {q : Nat} {xs : List Part} (h : Waits q xs) (hle : p ≤ q) : Waits p xs :=
  fun w hw => ⟨(h w hw).1, fun op hop => (h w hw).2 op (Nat.le_trans hop hle)⟩

theorem precedence_lt_unary (op : BinaryOp) (u : UnaryOp) : op.precedence < u.precedence := by
  unfold UnaryOp.precedence
  cases op <;> decide

/-- Nothing that waits below a tree goes out before an operator of the tree. -/
def Blocks (p : Nat) (stack : List Part) : Prop :=
  ∀ op : BinaryOp, p ≤ op.precedence → stack.takeWhile (releasedBy op.precedence) = []

/-- A written tree is worked off without touching what waits below it. Some of its parts go out at once, the
others are left waiting; together they are the tree in its own order. -/
theorem orderFrom_written {t : Tree} {parts : List Part} (h : Written p t parts) :
    ∀ stack rest, Blocks p stack → ∃ out waiting, out ++ waiting = t.postorder ∧ Waits p waiting ∧
      orderFrom stack (parts ++ rest) = (orderFrom (waiting ++ stack) rest).map (out ++ ·) := by
  induction h with
  | leaf l start stop =>
    intro stack rest _
    exact ⟨[⟨l.kind, start, stop⟩], [], rfl, nofun, orderFrom_leaf l start stop⟩
  | @brackets p t parts start stop start' stop' _ ih =>
    intro stack rest _
    obtain ⟨out, waiting, hpost, hwaits, horder⟩ := ih (⟨.opening, start, stop⟩ :: stack)
      (⟨.closing, start', stop'⟩ :: rest) fun _ _ => rfl
    refine ⟨t.postorder, [], List.append_nil _, nofun, ?_⟩
    calc orderFrom stack (⟨.opening, start, stop⟩ :: parts ++ [⟨.closing, start', stop'⟩] ++ rest)
        = orderFrom (⟨.opening, start, stop⟩ :: stack) (parts ++ ⟨.closing, start', stop'⟩ :: rest) := by
          rw [List.append_assoc]
          rfl
      _ = ((orderFrom stack rest).map (waiting ++ ·)).map (out ++ ·) := by
          rw [horder, orderFrom_closing fun w hw => (hwaits w hw).1]
      _ = (orderFrom stack rest).map (t.postorder ++ ·) := by rw [map_map_append, hpost]
  | @unary p t parts op start stop _ ih =>
    intro stack rest _
    obtain ⟨out, waiting, hpost, hwaits, horder⟩ := ih (⟨.unary op, start, stop⟩ :: stack) rest
      fun other hle => absurd (precedence_lt_unary other op) (Nat.not_lt.mpr hle)
    refine ⟨out, waiting ++ [⟨.unary op, start, stop⟩], ?_, ?_, ?_⟩
    · rw [Tree.postorder, ← hpost, List.append_assoc]
    · refine Waits.append (fun w hw => ⟨(hwaits w hw).1, fun other _ => ?_⟩) ?_
      · exact (hwaits w hw).2 other (Nat.le_of_lt (precedence_lt_unary other op))
      · intro w hw
        rw [List.mem_singleton.mp hw]
        exact ⟨rfl, fun other _ => decide_eq_true (Nat.le_of_lt (precedence_lt_unary other op))⟩
    · rw [List.cons_append, orderFrom_unary, horder, List.append_assoc]
      rfl
  | @binary p l r left right op start stop hp _ _ ihl ihr =>
    intro stack rest hblocks
    obtain ⟨outl, waitingl, hpostl, hwaitsl, horderl⟩ := ihl stack
      (⟨.binary op, start, stop⟩ :: right ++ rest) fun other hle => hblocks other (Nat.le_trans hp hle)
    have hreleased : ∀ w ∈ waitingl, releasedBy op.precedence w = true :=
      fun w hw => (hwaitsl w hw).2 op (Nat.le_refl _)
    have hstop := hblocks op hp
    have hkept : stack.dropWhile (releasedBy op.precedence) = stack := by
      have hboth := List.takeWhile_append_dropWhile (p := releasedBy op.precedence) (l := stack)
      rw [hstop] at hboth
      exact hboth
    obtain ⟨outr, waitingr, hpostr, hwaitsr, horderr⟩ := ihr (⟨.binary op, start, stop⟩ :: stack) rest (by
      intro other hle
      rw [List.takeWhile_cons_of_neg]
      exact fun hreleased => absurd (of_decide_eq_true hreleased) (Nat.not_le.mpr hle))
    refine ⟨outl ++ waitingl ++ outr, waitingr ++ [⟨.binary op, start, stop⟩], ?_, ?_, ?_⟩
    · rw [Tree.postorder, ← hpostl, ← hpostr]
      simp only [List.append_assoc]
    · refine Waits.append (hwaitsr.mono (Nat.le_succ_of_le hp)) fun w hw => ?_
      rw [List.mem_singleton.mp hw]
      exact ⟨rfl, fun other hle => decide_eq_true (Nat.le_trans hle hp)⟩
    calc orderFrom stack (left ++ ⟨.binary op, start, stop⟩ :: right ++ rest)
        = (orderFrom (waitingl ++ stack) (⟨.binary op, start, stop⟩ :: right ++ rest)).map (outl ++ ·) := by
          rw [List.append_assoc]
          exact horderl
      _ = ((orderFrom (⟨.binary op, start, stop⟩ :: stack) (right ++ rest)).map (waitingl ++ ·)).map
            (outl ++ ·) := by
          rw [List.cons_append, orderFrom_binary, List.dropWhile_append_of_pos hreleased,
            List.takeWhile_append_of_pos hreleased, hstop, List.append_nil, hkept]
      _ = (orderFrom (waitingr ++ ⟨.binary op, start, stop⟩ :: stack) rest).map
            (outl ++ waitingl ++ outr ++ ·) := by
          rw [map_map_append, horderr, map_map_append]
      _ = _ := by rw [List.append_assoc waitingr]; rfl

theorem order_written {t : Tree} {parts : List Part} (h : Written p t parts) : order parts = .ok t.postorder := by
  obtain ⟨out, waiting, hpost, hwaits, horder⟩ := orderFrom_written h [] [] fun _ _ => rfl
  rw [List.append_nil, List.append_nil] at horder
  rw [order, horder, orderFrom, release_of_no_opening fun w hw => (hwaits w hw).1, ← hpost]
  rfl

/-! ## The value of a tree -/

section Evaluation

variable {resolve : Resolver} {mode : Mode} {size : Nat}

theorem run_postorder (t : Tree) (stack : List Value) (rest : List Part) :
    run resolve mode size stack (t.postorder ++ rest) =
      withValue (t.evaluate resolve mode) fun v => run resolve mode size (v :: stack) rest := by
  induction t generalizing stack rest with
  | leaf l start stop =>
    cases l with
    | number n => exact run_number rfl
    | string text => exact run_string rfl
    | label reference =>
      change run resolve mode size stack (⟨.label reference, start, stop⟩ :: rest) = _
      cases hv : resolve reference start stop with
      | some v =>
        rw [run_label rfl hv]
        simp only [Tree.evaluate, hv, withValue]
      | none =>
        rw [run.eq_def]
        cases mode <;> simp only [Tree.evaluate, hv, withValue]
  | unary op start stop t ih =>
    rw [Tree.postorder, List.append_assoc, ih, Tree.evaluate]
    rcases t.evaluate resolve mode with err | (v | ⟨label, start', stop'⟩)
    · rfl
    · simp only [withValue, List.singleton_append]
      rw [run_unary rfl]
      cases op.apply v <;> rfl
    · rfl
  | binary op start stop l r ihl ihr =>
    rw [Tree.postorder, List.append_assoc, List.append_assoc, ihl, Tree.evaluate]
    rcases l.evaluate resolve mode with err | (v | ⟨label, start', stop'⟩)
    · rfl
    · simp only [withValue]
      rw [ihr]
      rcases r.evaluate resolve mode with err | (w | ⟨label, start', stop'⟩)
      · rfl
      · simp only [withValue, List.singleton_append]
        rw [run_binary rfl]
        cases op.apply v w <;> rfl
      · rfl
    · rfl

/-- Working off the parts of a tree in its order gives the value of the tree. -/
theorem evaluate_postorder (text : String) (t : Tree) (resolve : Resolver) (mode : Mode) :
    Expression.evaluate ⟨text, t.postorder⟩ resolve mode = t.evaluate resolve mode := by
  rw [Expression.evaluate, ← List.append_nil t.postorder, run_postorder]
  rcases t.evaluate resolve mode with err | (v | ⟨label, start, stop⟩) <;> rfl

end Evaluation

end CrossAssembler.Expression
