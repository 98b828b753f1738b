import CrossAssembler.Proofs.Expression.Faults
import CrossAssembler.Proofs.Expression.Tree

/-!
# Everything that is read is a written tree

Principal results: `nested_of_split` — the parts of a text that can be put in order are nested;
`exists_written` — nested parts are a written tree; `expression_meaning` — so reading and evaluating a text
is evaluating a tree.
-/

namespace CrossAssembler.Expression

open Text

variable {c : Char} {cs rest : List Char} {offset : Nat} {r : Reading} {e : Expectation} {part : Part}
variable {stack out : List Part}

/-! ## One part at a time -/

/-- Whether a kind of part may come where something is expected, and what is expected after it. -/
inductive Turn : Expectation → Part.Kind → Expectation → Prop
  | leaf (l : Leaf) : Turn .operand l.kind .operator
  | unary (op : UnaryOp) : Turn .operand (.unary op) .operand
  | opening : Turn .operand .opening .operand
  | binary (op : BinaryOp) : Turn .operator (.binary op) .operand
  | closing : Turn .operator .closing .operator

/-- What is read takes its turn, and at least one character. -/
def Takes (e : Expectation) (cs : List Char) (r : Reading) : Prop :=
  Turn e r.kind r.next ∧ r.rest.length ≤ cs.length

theorem length_dropWhile_le (p : Char → Bool) (cs : List Char) : (cs.dropWhile p).length ≤ cs.length :=
  (List.dropWhile_sublist p).length_le

theorem length_dropWhile_cons_le {p : Char → Bool} (h : p c = true) (cs : List Char) :
    ((c :: cs).dropWhile p).length ≤ cs.length := by
  rw [List.dropWhile_cons_of_pos h]
  exact length_dropWhile_le p cs

theorem length_stringBody {body : List Char} (h : stringBody cs = some (body, rest)) : rest.length ≤ cs.length := by
  fun_induction stringBody cs generalizing body rest with
  | case1 => cases h
  | case2 =>
    cases h
    exact Nat.le_succ _
  | case3 => cases h
  | case4 c tail ih =>
    obtain ⟨⟨body', rest'⟩, hbody, heq⟩ := Option.map_eq_some_iff.mp h
    cases heq
    exact Nat.le_succ_of_le (Nat.le_succ_of_le (ih hbody))
  | case5 c tail _ _ _ ih =>
    obtain ⟨⟨body', rest'⟩, hbody, heq⟩ := Option.map_eq_some_iff.mp h
    cases heq
    exact Nat.le_succ_of_le (ih hbody)

theorem length_characterBody {ch : Char} (h : characterBody cs = some (ch, rest)) : rest.length ≤ cs.length := by
  unfold characterBody at h
  split at h
  · cases h
    simp only [List.length_cons]
    omega
  · cases h
  · cases h
  · cases h
    simp only [List.length_cons]
    omega
  · cases h

theorem takes_numberReading {literal : List Char} {value : Option Number}
    (h : numberReading offset literal rest value = .ok r) (hrest : rest.length ≤ cs.length) :
    Takes .operand cs r := by
  unfold numberReading at h
  split at h
  · rename_i n
    cases h
    exact ⟨.leaf (.number n), hrest⟩
  · cases h

theorem takes_radixLiteral {base : Nat} {mark digits : List Char}
    (h : radixLiteral offset base mark digits = .ok r) (hrest : digits.length ≤ cs.length) :
    Takes .operand cs r :=
  takes_numberReading h (Nat.le_trans (length_dropWhile_le _ _) hrest)

theorem takes_decimal (h : operand.decimal offset c cs = .ok r) (hc : isWordChar c = true) : Takes .operand cs r :=
  takes_numberReading h (length_dropWhile_cons_le hc cs)

theorem length_namelessRun {count : Nat}
    (h : namelessRun? c (c :: cs) = some (count, rest)) : rest.length ≤ cs.length := by
  have hrest : rest = (c :: cs).dropWhile (· == c) := by
    unfold namelessRun? at h
    simp only at h
    split at h
    · cases h
      rfl
    · split at h
      · cases h
        rfl
      · cases h
  rw [hrest]
  exact length_dropWhile_cons_le (p := (· == c)) (beq_self_eq_true c) cs

theorem isWordChar_of_isDigit (h : c.isDigit = true) : isWordChar c = true := by
  simp [isWordChar, Char.isAlphanum, h]

theorem takes_operand (h : operand offset c cs = .ok r) : Takes .operand cs r := by
  rcases ite_eq_iff.mp h with ⟨-, h⟩ | ⟨-, h⟩
  · cases h
    exact ⟨.opening, Nat.le_refl _⟩
  rcases ite_eq_iff.mp h with ⟨rfl, h⟩ | ⟨-, h⟩
  · split at h
    · rename_i hrun
      cases h
      exact ⟨.leaf (.label (.forward _)), length_namelessRun hrun⟩
    · cases h
  rcases ite_eq_iff.mp h with ⟨rfl, h⟩ | ⟨-, h⟩
  · split at h
    · rename_i hrun
      cases h
      exact ⟨.leaf (.label (.backward _)), length_namelessRun hrun⟩
    · cases h
      exact ⟨.unary .negate, Nat.le_refl _⟩
  rcases ite_eq_iff.mp h with ⟨-, h⟩ | ⟨-, h⟩
  · cases h
    exact ⟨.unary .not, Nat.le_refl _⟩
  rcases ite_eq_iff.mp h with ⟨-, h⟩ | ⟨-, h⟩
  · cases h
    exact ⟨.unary .lowByte, Nat.le_refl _⟩
  rcases ite_eq_iff.mp h with ⟨-, h⟩ | ⟨-, h⟩
  · cases h
    exact ⟨.unary .highByte, Nat.le_refl _⟩
  rcases ite_eq_iff.mp h with ⟨-, h⟩ | ⟨-, h⟩
  · cases h
    exact ⟨.leaf (.label .here), Nat.le_refl _⟩
  rcases ite_eq_iff.mp h with ⟨-, h⟩ | ⟨-, h⟩
  · split at h
    · rename_i hbody
      cases h
      exact ⟨.leaf (.string _), length_stringBody hbody⟩
    · cases h
  rcases ite_eq_iff.mp h with ⟨-, h⟩ | ⟨-, h⟩
  · split at h
    · rename_i hbody
      cases h
      exact ⟨.leaf (.number _), length_characterBody hbody⟩
    · cases h
  rcases ite_eq_iff.mp h with ⟨-, h⟩ | ⟨-, h⟩
  · exact takes_radixLiteral h (Nat.le_refl _)
  rcases ite_eq_iff.mp h with ⟨-, h⟩ | ⟨-, h⟩
  · exact takes_radixLiteral h (Nat.le_refl _)
  rcases ite_eq_iff.mp h with ⟨hdigit, h⟩ | ⟨-, h⟩
  · split at h
    · exact takes_radixLiteral h (Nat.le_succ _)
    · exact takes_radixLiteral h (Nat.le_succ _)
    · exact takes_decimal h (isWordChar_of_isDigit hdigit)
  rcases ite_eq_iff.mp h with ⟨⟨rfl, -⟩, h⟩ | ⟨-, h⟩
  · exact takes_decimal h rfl
  rcases ite_eq_iff.mp h with ⟨hname, h⟩ | ⟨-, h⟩
  · cases h
    refine ⟨.leaf (.label (.named _)), length_dropWhile_cons_le ?_ cs⟩
    simp only [Bool.or_eq_true, decide_eq_true_eq] at hname
    rcases hname with (hname | rfl) | rfl
    · simp [isWordChar, Char.isAlphanum, hname]
    · rfl
    · rfl
  · cases h

theorem takes_operator (h : operator offset c cs = .ok r) : Takes .operator cs r := by
  unfold operator at h
  split at h
  · cases h
    exact ⟨.closing, Nat.le_refl _⟩
  split at h
  · rename_i symbol op hfound
    cases h
    refine ⟨.binary op, ?_⟩
    -- no operator of the table is empty
    have hmem := List.mem_of_find?_eq_some hfound
    have hpos : ∀ entry ∈ operatorTable, 0 < entry.1.length := by decide
    have hlength := hpos _ hmem
    simp only [List.length_drop, List.length_cons] at hlength ⊢
    omega
  · cases h

theorem takes_reading (h : reading e offset c cs = .ok r) : Takes e cs r := by
  cases e with
  | operand => exact takes_operand h
  | operator => exact takes_operator h

/-! ## Alternation and brackets -/

/-- Operands and operators alternate from what is expected first, and every closing bracket has a partner:
`depth` of them close brackets that were opened before. -/
inductive Nested : Expectation → Nat → List Part → Prop
  | done : Nested .operator 0 []
  | leaf {depth : Nat} {rest : List Part} (l : Leaf) (start stop : Nat) :
      Nested .operator depth rest → Nested .operand depth (⟨l.kind, start, stop⟩ :: rest)
  | unary {depth : Nat} {rest : List Part} (op : UnaryOp) (start stop : Nat) :
      Nested .operand depth rest → Nested .operand depth (⟨.unary op, start, stop⟩ :: rest)
  | opening {depth : Nat} {rest : List Part} (start stop : Nat) :
      Nested .operand (depth + 1) rest → Nested .operand depth (⟨.opening, start, stop⟩ :: rest)
  | binary {depth : Nat} {rest : List Part} (op : BinaryOp) (start stop : Nat) :
      Nested .operand depth rest → Nested .operator depth (⟨.binary op, start, stop⟩ :: rest)
  | closing {depth : Nat} {rest : List Part} (start stop : Nat) :
      Nested .operator depth rest → Nested .operator (depth + 1) (⟨.closing, start, stop⟩ :: rest)

/-- How many opening brackets wait on a stack. -/
def openings (stack : List Part) : Nat := stack.countP Part.isOpening

theorem openings_cons_of_not (h : part.isOpening = false) (stack : List Part) :
    openings (part :: stack) = openings stack :=
  List.countP_cons_of_neg (by simp [h])

theorem openings_eq_zero_of_release (h : release stack = .ok out) : openings stack = 0 := by
  induction stack generalizing out with
  | nil => rfl
  | cons top stack ih =>
    rw [release] at h
    split at h
    · cases h
    rename_i htop
    cases hrest : release stack with
    | error e =>
      rw [hrest] at h
      cases h
    | ok out' =>
      rw [openings_cons_of_not (by simpa using htop)]
      exact ih hrest

theorem isOpening_of_releasedBy {precedence : Nat} (h : releasedBy precedence part = true) :
    part.isOpening = false := by
  unfold releasedBy Part.precedence? at h
  unfold Part.isOpening
  cases hkind : part.kind <;> simp_all

theorem openings_dropWhile_releasedBy (precedence : Nat) (stack : List Part) :
    openings (stack.dropWhile (releasedBy precedence)) = openings stack := by
  induction stack with
  | nil => rfl
  | cons top stack ih =>
    by_cases h : releasedBy precedence top = true
    · rw [List.dropWhile_cons_of_pos h, ih, openings_cons_of_not (isOpening_of_releasedBy h)]
    · rw [List.dropWhile_cons_of_neg h]

theorem openings_of_dropWhile_eq_cons {below : List Part}
    (h : stack.dropWhile (fun p => !p.isOpening) = part :: below) : openings stack = openings below + 1 := by
  induction stack with
  | nil => cases h
  | cons top stack ih =>
    cases htop : top.isOpening with
    | true =>
      rw [List.dropWhile_cons_of_neg (by simp [htop])] at h
      cases h
      exact List.countP_cons_of_pos htop
    | false =>
      rw [List.dropWhile_cons_of_pos (by simp [htop])] at h
      rw [openings_cons_of_not htop]
      exact ih h

theorem exists_of_map_eq_ok {α β : Type} {f : α → β} {x : Except Error α} {b : β} (h : x.map f = .ok b) :
    ∃ a, x = .ok a := by
  cases x with
  | error e => cases h
  | ok a => exact ⟨a, rfl⟩

/-- A part that takes its turn keeps what comes after it nested as the brackets of the stack ask for. -/
theorem Turn.nested {next : Expectation} {kind : Part.Kind} {start stop : Nat} {rest : List Part}
    (hturn : Turn e kind next) (h : orderFrom stack (⟨kind, start, stop⟩ :: rest) = .ok out)
    (hrest : ∀ stack' out', orderFrom stack' rest = .ok out' → Nested next (openings stack') rest) :
    Nested e (openings stack) (⟨kind, start, stop⟩ :: rest) := by
  cases hturn with
  | leaf l =>
    rw [orderFrom_leaf] at h
    obtain ⟨out', hout⟩ := exists_of_map_eq_ok h
    exact .leaf l start stop (hrest stack out' hout)
  | unary op =>
    rw [orderFrom_unary] at h
    have hoperand := hrest _ out h
    rw [openings_cons_of_not rfl] at hoperand
    exact .unary op start stop hoperand
  | opening =>
    rw [orderFrom_opening] at h
    have hinner := hrest _ out h
    rw [openings, List.countP_cons_of_pos rfl] at hinner
    exact .opening start stop hinner
  | binary op =>
    rw [orderFrom_binary] at h
    obtain ⟨out', hout⟩ := exists_of_map_eq_ok h
    have hright := hrest _ out' hout
    rw [openings_cons_of_not rfl, openings_dropWhile_releasedBy] at hright
    exact .binary op start stop hright
  | closing =>
    rw [orderFrom] at h
    simp only at h
    split at h
    · cases h
    · rename_i below hbelow
      obtain ⟨out', hout⟩ := exists_of_map_eq_ok h
      rw [openings_of_dropWhile_eq_cons hbelow]
      exact .closing start stop (hrest below out' hout)

theorem nested_of_splitFrom {bound : Nat} {text : List Char} {parts : List Part} (hbound : text.length < bound)
    (hsplit : splitFrom bound e offset text = .ok parts) (horder : orderFrom stack parts = .ok out) :
    Nested e (openings stack) parts := by
  induction bound generalizing e offset text parts stack out with
  | zero => cases hbound
  | succ bound ih =>
    unfold splitFrom at hsplit
    simp only at hsplit
    have hdrop := length_dropWhile_le isAsciiBlank text
    split at hsplit
    · cases e with
      | operand => cases hsplit
      | operator =>
        cases hsplit
        rw [openings_eq_zero_of_release horder]
        exact .done
    · rename_i c cs htext
      rw [htext, List.length_cons] at hdrop
      obtain ⟨r, hread, hsplit⟩ := exists_of_bind_ok hsplit
      obtain ⟨parts', hparts, hsplit⟩ := exists_of_bind_ok hsplit
      cases hsplit
      obtain ⟨hturn, hlength⟩ := takes_reading hread
      exact hturn.nested horder fun stack' out' horder' => ih (by omega) hparts horder'

/-- The parts of a text that can be put in order alternate, and their brackets match. -/
theorem nested_of_split {text : List Char} {parts : List Part} (hsplit : split text = .ok parts)
    (horder : order parts = .ok out) : Nested .operand 0 parts := by
  unfold split at hsplit
  split at hsplit
  · cases hsplit
  · exact nested_of_splitFrom (Nat.lt_succ_self _) hsplit horder

/-! ## From a row of operands to a tree -/

/-- A tree written so that any operator may stand beside it. -/
structure Operand where
  tree : Tree
  parts : List Part
  written : ∀ p, Written p tree parts

/-- An operator and the operand to its right. -/
structure Link where
  op : BinaryOp
  start : Nat
  stop : Nat
  operand : Operand

/-- The parts of a link. -/
def Link.parts (link : Link) : List Part := ⟨.binary link.op, link.start, link.stop⟩ :: link.operand.parts

/-- How tightly the operator of a link binds. -/
def Link.precedence (link : Link) : Nat := link.op.precedence

theorem exists_last_least (first : Link) (links : List Link) :
    ∃ before least after, first :: links = before ++ least :: after ∧
      (∀ link ∈ before, least.precedence ≤ link.precedence) ∧
      ∀ link ∈ after, least.precedence < link.precedence := by
  induction links generalizing first with
  | nil => exact ⟨[], first, [], rfl, nofun, nofun⟩
  | cons second links ih =>
    obtain ⟨before, least, after, heq, hbefore, hafter⟩ := ih second
    by_cases hless : first.precedence < least.precedence
    · refine ⟨[], first, second :: links, rfl, nofun, fun link hlink => ?_⟩
      rw [heq] at hlink
      rcases List.mem_append.mp hlink with hlink | hlink
      · exact Nat.lt_of_lt_of_le hless (hbefore link hlink)
      · rcases List.mem_cons.mp hlink with rfl | hlink
        · exact hless
        · exact Nat.lt_trans hless (hafter link hlink)
    · refine ⟨first :: before, least, after, by rw [heq]; rfl, ?_, hafter⟩
      exact List.forall_mem_cons.mpr ⟨Nat.not_lt.mp hless, hbefore⟩

/-- Operands with operators between them are a written tree. Its root is the last operator of those that bind
least, so what stands right of it binds tighter. -/
theorem exists_written_of_links (links : List Link) (p : Nat) (first : Operand)
    (hp : ∀ link ∈ links, p ≤ link.precedence) :
    ∃ t, Written p t (first.parts ++ links.flatMap Link.parts) := by
  induction hn : links.length using Nat.strongRecOn generalizing links p first with
  | ind n ih =>
    cases links with
    | nil => exact ⟨first.tree, by simpa using first.written p⟩
    | cons second links =>
      obtain ⟨before, least, after, heq, hbefore, hafter⟩ := exists_last_least second links
      rw [heq] at hp hn ⊢
      rw [List.length_append, List.length_cons] at hn
      obtain ⟨left, hleft⟩ := ih before.length (by omega) before least.precedence first hbefore rfl
      obtain ⟨right, hright⟩ :=
        ih after.length (by omega) after (least.precedence + 1) least.operand hafter rfl
      have hleast : p ≤ least.precedence := hp least (by simp)
      refine ⟨.binary least.op least.start least.stop left right, ?_⟩
      rw [List.flatMap_append, List.flatMap_cons, ← List.append_assoc]
      exact .binary least.op least.start least.stop hleast hleft hright

/-- What is left after a row of operands: as many closing brackets as are open, each with a row of its own
behind it. -/
inductive Closes : Nat → List Part → Prop
  | done : Closes 0 []
  | closing {depth : Nat} {rest : List Part} (start stop : Nat) (links : List Link) :
      Closes depth rest → Closes (depth + 1) (⟨.closing, start, stop⟩ :: links.flatMap Link.parts ++ rest)

/-- A row of operands up to the end or the next closing bracket. -/
def Row : Expectation → Nat → List Part → Prop
  | .operator, depth, parts => ∃ links : List Link, ∃ rest, parts = links.flatMap Link.parts ++ rest ∧ Closes depth rest
  | .operand, depth, parts => ∃ (first : Operand) (links : List Link) (rest : List Part),
      parts = first.parts ++ links.flatMap Link.parts ++ rest ∧ Closes depth rest

theorem Nested.row {depth : Nat} {parts : List Part} (h : Nested e depth parts) : Row e depth parts := by
  induction h with
  | done => exact ⟨[], [], rfl, .done⟩
  | leaf l start stop _ ih =>
    obtain ⟨links, rest, rfl, hcloses⟩ := ih
    exact ⟨⟨.leaf l start stop, _, fun p => .leaf l start stop⟩, links, rest, rfl, hcloses⟩
  | unary op start stop _ ih =>
    obtain ⟨first, links, rest, rfl, hcloses⟩ := ih
    exact ⟨⟨.unary op start stop first.tree, _, fun p => .unary op start stop (first.written _)⟩,
      links, rest, rfl, hcloses⟩
  | opening start stop _ ih =>
    obtain ⟨first, links, rest, rfl, hcloses⟩ := ih
    obtain _ | ⟨start', stop', outer, hcloses⟩ := hcloses
    obtain ⟨t, hwritten⟩ := exists_written_of_links links 0 first fun _ _ => Nat.zero_le _
    refine ⟨⟨t, _, fun p => .brackets start stop start' stop' hwritten⟩, outer, _, ?_, hcloses⟩
    simp only [List.cons_append, List.append_assoc, List.nil_append]
  | binary op start stop _ ih =>
    obtain ⟨first, links, rest, rfl, hcloses⟩ := ih
    exact ⟨⟨op, start, stop, first⟩ :: links, rest, rfl, hcloses⟩
  | closing start stop _ ih =>
    obtain ⟨links, rest, rfl, hcloses⟩ := ih
    exact ⟨[], _, rfl, .closing start stop links hcloses⟩

theorem exists_written {parts : List Part} (h : Nested .operand 0 parts) : ∃ t, Written 0 t parts := by
  obtain ⟨first, links, rest, rfl, hcloses⟩ := h.row
  cases hcloses
  rw [List.append_nil]
  exact exists_written_of_links links 0 first fun _ _ => Nat.zero_le _

/-! ## Errors of a value -/

/-- Whether an error says that the parts of an expression do not fit together. -/
def Error.isStructural : Error → Bool
  | .unexpectedEnd _ | .empty | .unbalancedBracket _ => true
  | _ => false

/-- A computation whose errors are about the values it works on. -/
def Computes {α : Type} (x : Except Error α) : Prop := ∀ e, x = .error e → e.isStructural = false

section Computing

variable {α β : Type}

theorem computes_ok (a : α) : Computes (.ok a) := nofun

theorem computes_error {e : Error} (h : e.isStructural = false) : Computes (.error e : Except Error α) := by
  rintro _ ⟨⟩
  exact h

theorem Computes.map {x : Except Error α} (hx : Computes x) (f : α → β) : Computes (x.map f) := by
  cases x with
  | error e => exact computes_error (hx e rfl)
  | ok a => exact computes_ok (f a)

theorem OfValues.computes {x : Except Error α} (h : OfValues x) : Computes x := by
  intro e he
  have hvalues := h e he
  cases e with
  | notANumber | integerRequired | divisionByZero | overflow => rfl
  | _ => cases hvalues

theorem computes_unary (op : UnaryOp) (v : Value) : Computes (op.apply v) := (ofValues_unary op v).computes

theorem computes_binary (op : BinaryOp) (l r : Value) : Computes (op.apply l r) := (ofValues_binary op l r).computes

theorem Computes.withValue {first : Except Error Outcome} {next : Value → Except Error Outcome}
    (hfirst : Computes first) (hnext : ∀ v, Computes (next v)) : Computes (withValue first next) := by
  rcases first with e | (v | ⟨label, start, stop⟩)
  · exact hfirst
  · exact hnext v
  · exact hfirst

/-- Whatever goes wrong with a tree is the fault of a label or of the values. -/
theorem computes_tree (resolve : Resolver) (mode : Mode) (t : Tree) : Computes (t.evaluate resolve mode) := by
  induction t with
  | leaf l start stop =>
    cases l with
    | number n => exact computes_ok _
    | string text => exact computes_ok _
    | label reference =>
      unfold Tree.evaluate
      split
      · exact computes_ok _
      · exact computes_ok _
      · exact computes_error rfl
  | unary op start stop t ih => exact ih.withValue fun v => (computes_unary op v).map _
  | binary op start stop l r ihl ihr =>
    exact ihl.withValue fun v => ihr.withValue fun w => (computes_binary op v w).map _

end Computing

/-! ## What a text means -/

/-- However a tree is written with the brackets it needs, it is put in the order of the tree, and working off
that order gives the value of the tree, worked out from left to right. And every text that can be read is a
way to write some tree, so its value is the value of that tree and its parts always fit together. -/
theorem expression_meaning : (∀ t parts, Written 0 t parts → order parts = .ok t.postorder ∧
      ∀ text resolve mode, Expression.evaluate ⟨text, t.postorder⟩ resolve mode = t.evaluate resolve mode) ∧
    ∀ text e, parse text = .ok e → ∃ t parts, split text.toList = .ok parts ∧ Written 0 t parts ∧
      e.parts = t.postorder ∧ ∀ resolve mode, e.evaluate resolve mode = t.evaluate resolve mode ∧
        ∀ err, e.evaluate resolve mode = .error err → err.isStructural = false := by
  refine ⟨fun t parts h => ⟨order_written h, fun text => evaluate_postorder text t⟩, fun text e h => ?_⟩
  obtain ⟨parts, hsplit, h⟩ := exists_of_bind_ok h
  obtain ⟨ordered, horder, h⟩ := exists_of_bind_ok h
  cases h
  obtain ⟨t, hwritten⟩ := exists_written (nested_of_split hsplit horder)
  obtain rfl : ordered = t.postorder := by
    rw [order_written hwritten] at horder
    exact (Except.ok.inj horder).symm
  refine ⟨t, parts, hsplit, hwritten, rfl, fun resolve mode => ?_⟩
  rw [evaluate_postorder]
  exact ⟨rfl, computes_tree resolve mode t⟩

/-- A minus before a bracket binds tighter than the product, and the difference is the root. -/
theorem expression_meaning_mixed : ∃ (e : Expression) (t : Tree), parse "-(a+2)*3-b" = .ok e ∧ e.parts = t.postorder ∧
    e.parts.length = 8 ∧ ∀ resolve mode, e.evaluate resolve mode = t.evaluate resolve mode := by
  have hread : ∃ e, parse "-(a+2)*3-b" = .ok e ∧ e.parts.length = 8 := ⟨_, rfl, rfl⟩
  obtain ⟨e, hparse, hlength⟩ := hread
  obtain ⟨t, _, _, _, hparts, hvalue⟩ := expression_meaning.2 _ e hparse
  exact ⟨e, t, hparse, hparts, hlength, fun resolve mode => (hvalue resolve mode).1⟩

end CrossAssembler.Expression
