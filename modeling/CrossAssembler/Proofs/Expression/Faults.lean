import CrossAssembler.Expression.Evaluation
import Mathlib

/-!
# What can go wrong with values

Principal results: `ofValues_unary`, `ofValues_binary` — operators fail with no other error.
-/

namespace CrossAssembler.Expression

/-- Whether an error is about the values an operator works on. -/
def Error.isOfValues : Error → Bool
  | .notANumber _ | .integerRequired _ | .divisionByZero | .overflow => true
  | _ => false

/-- A computation whose errors are all about the values it works on. -/
def OfValues {α : Type} (x : Except Error α) : Prop := ∀ e, x = .error e → e.isOfValues = true

variable {α β : Type}

theorem ofValues_ok (a : α) : OfValues (.ok a) := nofun

theorem ofValues_error {e : Error} (h : e.isOfValues = true) : OfValues (.error e : Except Error α) := by
  rintro _ ⟨⟩
  exact h

theorem OfValues.bind {x : Except Error α} {f : α → Except Error β} (hx : OfValues x)
    (hf : ∀ a, OfValues (f a)) : OfValues (x >>= f) := by
  cases x with
  | error e => exact ofValues_error (hx e rfl)
  | ok a => exact hf a

theorem OfValues.map {x : Except Error α} (hx : OfValues x) (f : α → β) : OfValues (x.map f) := by
  cases x with
  | error e => exact ofValues_error (hx e rfl)
  | ok a => exact ofValues_ok (f a)

theorem OfValues.ite {p : Prop} [Decidable p] {x y : Except Error α} (hx : OfValues x) (hy : OfValues y) :
    OfValues (if p then x else y) := by
  split <;> assumption

theorem ofValues_ofInt (n : Int) : OfValues (Number.ofInt n) := by
  unfold Number.ofInt
  split
  · exact ofValues_ok _
  · exact ofValues_error rfl

theorem ofValues_ofFloat (x : Float) : OfValues (Number.ofFloat x) := by
  unfold Number.ofFloat
  refine OfValues.ite ?_ (ofValues_error rfl)
  split <;> exact ofValues_ok _

theorem ofValues_words (operator : String) (a b : Number) : OfValues (Number.words operator a b) := by
  unfold Number.words
  split
  · exact ofValues_ok _
  · exact ofValues_error rfl

theorem ofValues_toNumber (v : Value) : OfValues v.toNumber := by
  unfold Value.toNumber
  split
  · exact ofValues_ok _
  · split
    · exact ofValues_ok _
    · exact ofValues_error rfl

theorem ofValues_add (a b : Number) : OfValues (a.add b) := by
  unfold Number.add
  split
  · exact ofValues_ofInt _
  · exact ofValues_ofFloat _

theorem ofValues_sub (a b : Number) : OfValues (a.sub b) := by
  unfold Number.sub
  split
  · exact ofValues_ofInt _
  · exact ofValues_ofFloat _

theorem ofValues_mul (a b : Number) : OfValues (a.mul b) := by
  unfold Number.mul
  split
  · exact ofValues_ofInt _
  · exact ofValues_ofFloat _

theorem ofValues_div (a b : Number) : OfValues (a.div b) := by
  unfold Number.div
  refine OfValues.ite (ofValues_error rfl) ?_
  split
  · exact OfValues.ite (ofValues_ofInt _) (ofValues_ofFloat _)
  · exact ofValues_ofFloat _

theorem ofValues_rem (a b : Number) : OfValues (a.rem b) :=
  (ofValues_words _ a b).bind fun _ =>
    .ite (ofValues_error rfl) (.ite (ofValues_error rfl) (ofValues_ofInt _))

theorem ofValues_shift (operator : String) (f : Int64 → Int64 → Int64) (a b : Number) :
    OfValues (Number.shift operator f a b) :=
  (ofValues_words _ a b).bind fun _ => .ite (ofValues_ok _) (ofValues_error rfl)

theorem ofValues_bitwise (operator : String) (f : Int64 → Int64 → Int64) (a b : Number) :
    OfValues (Number.bitwise operator f a b) :=
  (ofValues_words _ a b).bind fun _ => ofValues_ok _

theorem ofValues_neg (a : Number) : OfValues a.neg := by
  cases a with
  | int n => exact ofValues_ofInt _
  | real x => exact ofValues_ofFloat _

theorem ofValues_unary (op : UnaryOp) (v : Value) : OfValues (op.apply v) := by
  cases op with
  | not => exact ofValues_ok _
  | negate => exact (ofValues_toNumber v).bind fun n => (ofValues_neg n).bind fun _ => ofValues_ok _
  | lowByte | highByte => exact (ofValues_toNumber v).map _

theorem ofValues_onNumbers (op : BinaryOp) (a b : Number) : OfValues (op.onNumbers a b) := by
  cases op with
  | mul => exact (ofValues_mul a b).map _
  | div => exact (ofValues_div a b).map _
  | rem => exact (ofValues_rem a b).map _
  | add => exact (ofValues_add a b).map _
  | sub => exact (ofValues_sub a b).map _
  | shl | shr => exact (ofValues_shift _ _ a b).map _
  | bitAnd | bitXor | bitOr => exact (ofValues_bitwise _ _ a b).map _
  | lt | le | gt | ge | eq | ne | and | or => exact ofValues_ok _

theorem ofValues_binary (op : BinaryOp) (l r : Value) : OfValues (op.apply l r) := by
  unfold BinaryOp.apply
  split
  case h_6 =>
    exact (ofValues_toNumber l).bind fun a => (ofValues_toNumber r).bind fun b => ofValues_onNumbers op a b
  all_goals exact ofValues_ok _

end CrossAssembler.Expression
