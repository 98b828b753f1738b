/-!
# Byte positions in a text

Positions in source text count UTF-8 bytes. Text is handled as a list of characters, so a position
is found by adding up the sizes of the characters before it.
-/

namespace CrossAssembler.Text

/-- The number of UTF-8 bytes of the characters. -/
def byteLength : List Char → Nat
  | [] => 0
  | c :: cs => c.utf8Size + byteLength cs

/-- The characters from byte position `n` on. -/
def dropBytes : Nat → List Char → List Char
  | 0, cs => cs
  | _ + 1, [] => []
  | n + 1, c :: cs => dropBytes (n + 1 - c.utf8Size) cs

/-- The characters that begin before byte position `n`. -/
def takeBytes : Nat → List Char → List Char
  | 0, _ => []
  | _ + 1, [] => []
  | n + 1, c :: cs => c :: takeBytes (n + 1 - c.utf8Size) cs

/-- The characters between two byte positions. -/
def sliceBytes (start stop : Nat) (cs : List Char) : List Char :=
  takeBytes (stop - start) (dropBytes start cs)

/-- Whether byte position `n` is the start of a character or the end of the text. -/
def isBoundary : Nat → List Char → Bool
  | 0, _ => true
  | _ + 1, [] => false
  | n + 1, c :: cs => c.utf8Size ≤ n + 1 && isBoundary (n + 1 - c.utf8Size) cs

@[simp] theorem byteLength_nil : byteLength [] = 0 := rfl

@[simp] theorem byteLength_cons (c : Char) (cs : List Char) :
    byteLength (c :: cs) = c.utf8Size + byteLength cs := rfl

@[simp] theorem byteLength_append (xs ys : List Char) :
    byteLength (xs ++ ys) = byteLength xs + byteLength ys := by
  induction xs with
  | nil => simp
  | cons c cs ih => simp [ih, Nat.add_assoc]

/-- A string has as many bytes as its characters. -/
theorem utf8ByteSize_ofList (cs : List Char) : (String.ofList cs).utf8ByteSize = byteLength cs := by
  induction cs with
  | nil => rfl
  | cons c cs ih =>
    rw [show c :: cs = [c] ++ cs from rfl, String.ofList_append, String.utf8ByteSize_append, ih]
    simp

theorem byteLength_toList (s : String) : byteLength s.toList = s.utf8ByteSize := by
  rw [← utf8ByteSize_ofList, String.ofList_toList]

/-- Cutting at the size of the first part gives the second part. -/
theorem dropBytes_append (xs ys : List Char) : dropBytes (byteLength xs) (xs ++ ys) = ys := by
  induction xs with
  | nil => cases ys <;> rfl
  | cons c cs ih =>
    have hc : 0 < c.utf8Size := c.utf8Size_pos
    obtain ⟨n, hn⟩ : ∃ n, c.utf8Size + byteLength cs = n + 1 := ⟨c.utf8Size + byteLength cs - 1, by omega⟩
    have hr : n + 1 - c.utf8Size = byteLength cs := by omega
    simp [hn, dropBytes, hr, ih]

/-- Cutting at the size of the first part gives the first part. -/
theorem takeBytes_append (xs ys : List Char) : takeBytes (byteLength xs) (xs ++ ys) = xs := by
  induction xs with
  | nil => cases ys <;> rfl
  | cons c cs ih =>
    have hc : 0 < c.utf8Size := c.utf8Size_pos
    obtain ⟨n, hn⟩ : ∃ n, c.utf8Size + byteLength cs = n + 1 := ⟨c.utf8Size + byteLength cs - 1, by omega⟩
    have hr : n + 1 - c.utf8Size = byteLength cs := by omega
    simp [hn, takeBytes, hr, ih]

end CrossAssembler.Text
