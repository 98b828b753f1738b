import CrossAssembler.Expression.Value
import CrossAssembler.Text.Blank

/-!
# Messages with placeholders

A number in curly brackets stands for the value with that number. A dollar sign before it asks for
hexadecimal digits, an at sign for binary ones. Brackets around anything else are ordinary text.
-/

namespace CrossAssembler.Message

/-- Why a message cannot be rendered. -/
inductive Error where
  | noArgument (index : Nat)
  | value (cause : Expression.Error)
  deriving Repr

def Error.message : Error → String
  | noArgument index => s!"placeholder \x7b{index}\x7d has no matching argument"
  | value cause => cause.message

/-- How a value is written. -/
inductive Radix where
  | plain
  | hexadecimal
  | binary
  deriving DecidableEq, Repr

def write (value : Value) : Radix → Except Error String
  | .plain => .ok value.text
  | .hexadecimal => (value.toWord.map Word.hexText).mapError Error.value
  | .binary => (value.toWord.map Word.binaryText).mapError Error.value

/-- The text before and after the first occurrence of a character. -/
def cutAt? (c : Char) : List Char → Option (List Char × List Char)
  | [] => none
  | d :: cs => if d = c then some ([], cs) else (cutAt? c cs).map fun (before, after) => (d :: before, after)

/-- The text before a placeholder without the sign for its radix, and the radix. -/
def radixBefore (before : List Char) : List Char × Radix :=
  match before.getLast? with
  | some '$' => (before.dropLast, .hexadecimal)
  | some '@' => (before.dropLast, .binary)
  | _ => (before, .plain)

/-- Fills in the placeholders of a text, of which there are at most the given number. -/
def renderWithin (values : List Value) : Nat → List Char → Except Error (List Char)
  | 0, cs => .ok cs
  | bound + 1, cs =>
    match cutAt? '\x7b' cs with
    | none => .ok cs
    | some (before, inside) =>
      match cutAt? '\x7d' inside with
      | none => .ok cs
      | some (index, after) =>
        match Word.readNat? Word.count (Text.trim index) with
        | none =>
          (renderWithin values bound after).map fun rest => before ++ '\x7b' :: index ++ '\x7d' :: rest
        | some i =>
          match values[i]? with
          | none => .error (.noArgument i)
          | some value =>
            let (kept, radix) := radixBefore before
            match write value radix with
            | .error e => .error e
            | .ok text => (renderWithin values bound after).map fun rest => kept ++ text.toList ++ rest

/-- A format with its placeholders filled in. Every placeholder takes at least one character. -/
def render (format : String) (values : List Value) : Except Error String :=
  (renderWithin values format.length format.toList).map String.ofList

end CrossAssembler.Message
