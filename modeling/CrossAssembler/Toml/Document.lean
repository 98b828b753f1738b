import CrossAssembler.Toml.Quoted
import CrossAssembler.Toml.Scalar

/-!
# Reading TOML

Lists and tables between brackets may go over several lines and end with a comma. In a table no key may
stand for two values, and no key may lead through a value.
-/

namespace CrossAssembler.Toml

/-- How deep lists and tables may stand in one another. -/
def depthLimit : Nat := 80

def name? : List Char → Option (List Char × List Char)
  | '"' :: rest => basicString? (rest.length + 1) rest
  | '\'' :: rest => literalString? rest
  | cs =>
    match cs.takeWhile isBare with
    | [] => none
    | name => some (name, cs.drop name.length)

/-- The names of a key with dots between them. -/
def key? : Nat → List Char → Option (List String × List Char)
  | 0, _ => none
  | bound + 1, cs => do
    let (name, rest) ← name? cs
    match skipGaps rest with
    | '.' :: rest =>
      let (names, rest) ← key? bound (skipGaps rest)
      some (String.ofList name :: names, rest)
    | _ => some ([String.ofList name], rest)

/-- Whether no key leads to or through the value of another. -/
def keysApart : List (List String) → Bool
  | [] => true
  | key :: keys => keys.all (fun k => !key.isPrefixOf k && !k.isPrefixOf key) && keysApart keys

mutual

/-- The value at the start of a text, with at most so many levels of lists and tables. -/
def value? : Nat → Nat → List Char → Option (Value × List Char)
  | 0, _, _ => none
  | bound + 1, levels, cs =>
    match cs with
    | '[' :: rest =>
      if levels = 0 then none
      else (items? bound (levels - 1) (skipSpace rest)).map fun (items, rest) => (.list items, rest)
    | '\x7b' :: rest =>
      if levels = 0 then none
      else do
        let (entries, rest) ← entries? bound (levels - 1) (skipSpace rest)
        if keysApart (entries.map (·.1)) then some (.table entries, rest) else none
    | '"' :: _ | '\'' :: _ => (string? cs).map fun (s, rest) => (.text (String.ofList s), rest)
    | _ => scalar? cs

def items? : Nat → Nat → List Char → Option (List Value × List Char)
  | 0, _, _ => none
  | bound + 1, levels, cs =>
    match cs with
    | ']' :: rest => some ([], rest)
    | _ => do
      let (first, rest) ← value? bound levels cs
      match skipSpace rest with
      | ']' :: rest => some ([first], rest)
      | ',' :: rest =>
        let (items, rest) ← items? bound levels (skipSpace rest)
        some (first :: items, rest)
      | _ => none

def entries? : Nat → Nat → List Char → Option (List (List String × Value) × List Char)
  | 0, _, _ => none
  | bound + 1, levels, cs =>
    match cs with
    | '\x7d' :: rest => some ([], rest)
    | _ => do
      let (keys, rest) ← key? (cs.length + 1) cs
      let rest ← after? '=' (skipSpace rest)
      let (value, rest) ← value? bound levels (skipSpace rest)
      match skipSpace rest with
      | '\x7d' :: rest => some ([(keys, value)], rest)
      | ',' :: rest =>
        let (entries, rest) ← entries? bound levels (skipSpace rest)
        some ((keys, value) :: entries, rest)
      | _ => none

end

/-- A key and the value assigned to it on one line. -/
def assignment? (cs : List Char) : Option (Statement × List Char) := do
  let (keys, rest) ← key? (cs.length + 1) cs
  let rest ← after? '=' (skipGaps rest)
  let (value, rest) ← value? (2 * rest.length + 2) depthLimit (skipGaps rest)
  some (.assign keys value, rest)

/-- A header, after its opening brackets, up to its closing ones. -/
def header? (closing : List Char) (cs : List Char) : Option (List String × List Char) := do
  let (keys, rest) ← key? (cs.length + 1) (skipGaps cs)
  let rest := skipGaps rest
  if closing.isPrefixOf rest then some (keys, rest.drop closing.length) else none

def statement? : List Char → Option (Statement × List Char)
  | '[' :: '[' :: rest => (header? [']', ']'] rest).map fun (keys, rest) => (.listHeader keys, rest)
  | '[' :: rest => (header? [']'] rest).map fun (keys, rest) => (.header keys, rest)
  | cs => assignment? cs

/-- The statements of the rest of a document. -/
def statements? : Nat → List Char → Option (List Statement)
  | 0, _ => none
  | bound + 1, cs =>
    match skipSpace cs with
    | [] => some []
    | rest => do
      let (s, rest) ← statement? rest
      let rest ← endLine? rest
      let more ← statements? bound rest
      some (s :: more)

/-- The statements of a document. A byte order mark may stand before them. -/
def read? (text : String) : Option (List Statement) :=
  let cs := match text.toList with
    | '\uFEFF' :: rest => rest
    | cs => cs
  statements? (cs.length + 1) cs

end CrossAssembler.Toml
