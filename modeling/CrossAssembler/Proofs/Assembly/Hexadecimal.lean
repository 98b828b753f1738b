import CrossAssembler.Assembly.Parsing
import CrossAssembler.Proofs.Expression.Numerals

/-!
# Hexadecimal data as it is written

Principal result: `readHex_cases` — a text is read as the bytes it is written for, or its first fault is found.
-/

namespace CrossAssembler

open Text Expression

variable {cs : List Char} {bytes : List UInt8} {runs : List (Nat × List Char)} {start : Nat}

/-! ## Bytes as they are written -/

/-- Whether characters are how bytes are written, each in two hexadecimal digits of any case. -/
inductive HexPairs : List UInt8 → List Char → Prop
  | nil : HexPairs [] []
  | cons {byte : UInt8} {high low : Char} {bytes : List UInt8} {cs : List Char}
      (hhigh : Spells (byte.toNat / 16) high) (hlow : Spells (byte.toNat % 16) low) (h : HexPairs bytes cs) :
      HexPairs (byte :: bytes) (high :: low :: cs)

/-- The runs of characters between the blanks of a text, each with the byte it starts at. -/
inductive TextRuns : Nat → List Char → List (Nat × List Char) → Prop
  | nil {start : Nat} : TextRuns start [] []
  | blank {start : Nat} {c : Char} {cs : List Char} {runs : List (Nat × List Char)} (hc : isBlank c = true)
      (h : TextRuns (start + c.utf8Size) cs runs) : TextRuns start (c :: cs) runs
  | run {start : Nat} {run cs : List Char} {runs : List (Nat × List Char)} (hne : run ≠ [])
      (hrun : ∀ c ∈ run, isBlank c = false) (hend : ∀ c ∈ cs.head?, isBlank c = true)
      (h : TextRuns (start + byteLength run) cs runs) : TextRuns start (run ++ cs) ((start, run) :: runs)

/-- Whether a text is how bytes are written, in groups of whole bytes with blanks between them. -/
def HexText (bytes : List UInt8) (cs : List Char) : Prop :=
  ∃ runs groups, TextRuns 0 cs runs ∧ List.Forall₂ HexPairs groups (runs.map Prod.snd) ∧ bytes = groups.flatten

/-- Whether a run of a text, which starts at a byte, is no whole bytes, and all runs before it are. -/
def FirstFault (cs : List Char) (start : Nat) (run : List Char) : Prop :=
  ∃ before after groups, TextRuns 0 cs (before ++ (start, run) :: after) ∧
    List.Forall₂ HexPairs groups (before.map Prod.snd) ∧ ∀ bytes, ¬ HexPairs bytes run

/-! ## Reading pairs -/

theorem readDigits_pair {byte : UInt8} {high low : Char} (hhigh : Spells (byte.toNat / 16) high)
    (hlow : Spells (byte.toNat % 16) low) : Word.readDigits? 16 [high, low] = some byte.toNat := by
  have hlt := byte.toNat_lt
  have hspelled : Spelled 16 [byte.toNat / 16, byte.toNat % 16] [high, low] :=
    ⟨.cons hhigh (.cons hlow .nil), by simp; omega⟩
  rw [readDigits_of_spelled (by decide) hspelled]
  simp [Nat.ofDigits]
  omega

theorem exists_spells {n : Nat} (h : Word.readDigits? 16 cs = some n) {c : Char} (hc : c ∈ cs) :
    ∃ d < 16, Spells d c := by
  by_contra hforeign
  rw [readDigits_of_foreign (by decide) ⟨c, hc, fun d hd hs => hforeign ⟨d, hd, hs⟩⟩] at h
  cases h

theorem spells_of_readDigits {high low : Char} {n : Nat} (h : Word.readDigits? 16 [high, low] = some n) :
    Spells (n.toUInt8.toNat / 16) high ∧ Spells (n.toUInt8.toNat % 16) low := by
  obtain ⟨x, hx, hhigh⟩ := exists_spells h (List.mem_cons_self ..)
  obtain ⟨y, hy, hlow⟩ := exists_spells h (List.mem_cons_of_mem _ (List.mem_cons_self ..))
  have hspelled : Spelled 16 [x, y] [high, low] := ⟨.cons hhigh (.cons hlow .nil), by simp; omega⟩
  rw [readDigits_of_spelled (by decide) hspelled] at h
  have hn : n = x * 16 + y := by simpa [Nat.ofDigits, Nat.add_comm, Nat.mul_comm, eq_comm] using h
  have hbyte : n.toUInt8.toNat = n := by
    rw [Nat.toUInt8, UInt8.toNat_ofNat']
    omega
  rw [hbyte, hn]
  exact ⟨by rwa [show (x * 16 + y) / 16 = x by omega], by rwa [show (x * 16 + y) % 16 = y by omega]⟩

theorem hexPairs_iff : Assembly.hexPairs? cs = some bytes ↔ HexPairs bytes cs := by
  refine ⟨fun h => ?_, fun h => ?_⟩
  · fun_induction Assembly.hexPairs? cs generalizing bytes with
    | case1 =>
      cases h
      exact .nil
    | case2 => cases h
    | case3 high low rest n more hrest hpair ih =>
      cases h
      obtain ⟨hhigh, hlow⟩ := spells_of_readDigits hpair
      exact .cons hhigh hlow (ih hrest)
    | case4 => cases h
  · induction h with
    | nil => rfl
    | cons hhigh hlow _ ih =>
      rw [Assembly.hexPairs?, readDigits_pair hhigh hlow, ih]
      simp

theorem hexGroups_of_pairs {groups : List (List UInt8)}
    (h : List.Forall₂ HexPairs groups (runs.map Prod.snd)) : Assembly.hexGroups runs = .ok groups.flatten := by
  induction runs generalizing groups with
  | nil =>
    cases h
    rfl
  | cons run runs ih =>
    cases h with
    | cons hrun hruns =>
      rw [Assembly.hexGroups, hexPairs_iff.mpr hrun, ih hruns]
      rfl

/-- All runs are whole bytes, or the first that is none is found. -/
theorem hexGroups_cases (runs : List (Nat × List Char)) :
    (∃ groups, List.Forall₂ HexPairs groups (runs.map Prod.snd)) ∨
      ∃ before start run after groups, runs = before ++ (start, run) :: after ∧
        List.Forall₂ HexPairs groups (before.map Prod.snd) ∧ (∀ bytes, ¬ HexPairs bytes run) ∧
        Assembly.hexGroups runs = .error (start, run) := by
  induction runs with
  | nil => exact .inl ⟨[], .nil⟩
  | cons first runs ih =>
    obtain ⟨start, run⟩ := first
    cases hpairs : Assembly.hexPairs? run with
    | none =>
      refine .inr ⟨[], start, run, runs, [], rfl, .nil, fun bytes h => ?_, ?_⟩
      · rw [hexPairs_iff.mpr h] at hpairs
        cases hpairs
      · rw [Assembly.hexGroups, hpairs]
    | some bytes =>
      have hrun := hexPairs_iff.mp hpairs
      rcases ih with ⟨groups, h⟩ | ⟨before, start', run', after, groups, rfl, h, hfault, herror⟩
      · exact .inl ⟨bytes :: groups, .cons hrun h⟩
      · refine .inr ⟨(start, run) :: before, start', run', after, bytes :: groups, rfl, .cons hrun h, hfault, ?_⟩
        rw [Assembly.hexGroups, hpairs, herror]
        rfl

/-! ## Scanning -/

theorem byteLength_reverse (cs : List Char) : byteLength cs.reverse = byteLength cs := by
  induction cs with
  | nil => rfl
  | cons c cs ih =>
    rw [List.reverse_cons, byteLength_append, ih, byteLength_cons, byteLength_cons, byteLength_nil]
    omega

theorem runs_blankSeparated (cs : List Char) : ∀ (start : Nat) (run : List Char), (∀ c ∈ run, isBlank c = false) →
      TextRuns start (run.reverse ++ cs) (Assembly.blankSeparated (start + byteLength run) run cs) := by
  -- a run that has been begun ends before what is left
  have hclose : ∀ {start : Nat} {run cs : List Char} {runs : List (Nat × List Char)}, run.isEmpty = false →
      (∀ c ∈ run, isBlank c = false) → (∀ c ∈ cs.head?, isBlank c = true) → TextRuns (start + byteLength run) cs runs →
      TextRuns start (run.reverse ++ cs) ((start + byteLength run - byteLength run, run.reverse) :: runs) := by
    intro start run cs runs hne hrun hend h
    rw [Nat.add_sub_cancel]
    refine .run ?_ (fun c hc => hrun c (List.mem_reverse.mp hc)) hend ((byteLength_reverse run).symm ▸ h)
    rintro hnil
    rw [List.reverse_eq_nil_iff.mp hnil] at hne
    cases hne
  induction cs with
  | nil =>
    intro start run hrun
    unfold Assembly.blankSeparated
    split
    · rename_i hempty
      rw [List.isEmpty_iff.mp hempty]
      exact .nil
    · exact hclose (Bool.eq_false_iff.mpr ‹_›) hrun nofun .nil
  | cons c cs ih =>
    intro start run hrun
    unfold Assembly.blankSeparated
    split
    · rename_i hc
      have hrest : TextRuns (start + byteLength run) (c :: cs) _ := .blank hc (ih _ [] nofun)
      split
      · rename_i hempty
        rw [List.isEmpty_iff.mp hempty] at hrest ⊢
        exact hrest
      · exact hclose (Bool.eq_false_iff.mpr ‹_›) hrun (by simpa using hc) hrest
    · rename_i hc
      have hrest := ih start (c :: run) (List.forall_mem_cons.mpr ⟨Bool.eq_false_iff.mpr hc, hrun⟩)
      rw [byteLength_cons, Nat.add_comm c.utf8Size, ← Nat.add_assoc, List.reverse_cons, List.append_assoc] at hrest
      exact hrest

theorem blankSeparated_run (start : Nat) (hend : ∀ c ∈ cs.head?, isBlank c = true) :
    ∀ (run begun : List Char), begun ++ run ≠ [] → (∀ c ∈ run, isBlank c = false) →
      Assembly.blankSeparated (start + byteLength begun) begun (run ++ cs) = (start, begun.reverse ++ run) ::
          Assembly.blankSeparated (start + byteLength begun + byteLength run) [] cs
  | [], begun, hne, _ => by
    rw [List.append_nil] at hne
    have hempty : begun.isEmpty = false := by simpa using hne
    cases cs with
    | nil => simp [Assembly.blankSeparated, hempty]
    | cons c cs => simp [Assembly.blankSeparated, hempty, hend c rfl]
  | c :: run, begun, _, hrun => by
    obtain ⟨hc, hrun⟩ := List.forall_mem_cons.mp hrun
    have hrest := blankSeparated_run start hend run (c :: begun) nofun hrun
    rw [List.cons_append, Assembly.blankSeparated, if_neg (by simp [hc])]
    rw [byteLength_cons, Nat.add_comm c.utf8Size, ← Nat.add_assoc] at hrest
    rw [hrest, byteLength_cons, Nat.add_assoc _ c.utf8Size]
    simp

theorem TextRuns.eq_blankSeparated (h : TextRuns start cs runs) : runs = Assembly.blankSeparated start [] cs := by
  induction h with
  | nil => rfl
  | blank hc _ ih => simp [Assembly.blankSeparated, hc, ih]
  | run hne hrun hend _ ih =>
    rw [ih]
    exact (blankSeparated_run _ hend _ [] hne hrun).symm

theorem TextRuns.stop_le (h : TextRuns start cs runs) : ∀ r ∈ runs, r.1 + byteLength r.2 ≤ start + byteLength cs := by
  induction h with
  | nil => exact nofun
  | blank _ _ ih =>
    intro r hr
    rw [byteLength_cons, ← Nat.add_assoc]
    exact ih r hr
  | run _ _ _ _ ih =>
    rw [byteLength_append, ← Nat.add_assoc]
    exact List.forall_mem_cons.mpr ⟨Nat.le_add_right .., ih⟩

/-! ## Reading texts -/

theorem readHex_of_hexText (h : HexText bytes cs) : Assembly.readHex cs = .ok bytes := by
  obtain ⟨runs, groups, hruns, hgroups, rfl⟩ := h
  rw [Assembly.readHex, ← hruns.eq_blankSeparated, hexGroups_of_pairs hgroups]

/-- A text is read as the bytes it is written for, or its first fault is found. -/
theorem readHex_cases (cs : List Char) : (∃ bytes, HexText bytes cs ∧ Assembly.readHex cs = .ok bytes) ∨
      ∃ start run, FirstFault cs start run ∧ Assembly.readHex cs = .error (start, run) := by
  have hruns : TextRuns 0 cs (Assembly.blankSeparated 0 [] cs) := runs_blankSeparated cs 0 [] nofun
  rcases hexGroups_cases (Assembly.blankSeparated 0 [] cs) with
    ⟨groups, hgroups⟩ | ⟨before, start, run, after, groups, hsplit, hgroups, hfault, herror⟩
  · exact .inl ⟨_, ⟨_, groups, hruns, hgroups, rfl⟩, hexGroups_of_pairs hgroups⟩
  · exact .inr ⟨start, run, ⟨before, after, groups, hsplit ▸ hruns, hgroups, hfault⟩, herror⟩

theorem hexText_of_readHex (h : Assembly.readHex cs = .ok bytes) : HexText bytes cs := by
  rcases readHex_cases cs with ⟨_, htext, hread⟩ | ⟨_, _, -, hread⟩
  · rw [hread] at h
    cases h
    exact htext
  · rw [hread] at h
    cases h

theorem stop_le_of_readHex {run : List Char} (h : Assembly.readHex cs = .error (start, run)) :
    start + byteLength run ≤ byteLength cs := by
  rcases readHex_cases cs with ⟨_, -, hread⟩ | ⟨_, _, ⟨_, _, _, hruns, -⟩, hread⟩
  · rw [hread] at h
    cases h
  · rw [hread] at h
    cases h
    simpa using hruns.stop_le (start, run) (List.mem_append_right _ (List.mem_cons_self ..))

theorem HexText.isBlank (h : HexText [] cs) : ∀ c ∈ cs, isBlank c = true := by
  obtain ⟨runs, groups, hruns, hgroups, hnil⟩ := h
  generalize 0 = start at hruns
  induction hruns generalizing groups with
  | nil => exact nofun
  | blank hc _ ih => exact List.forall_mem_cons.mpr ⟨hc, ih groups hgroups hnil⟩
  | run hne =>
    cases hgroups with
    | cons hrun _ =>
      obtain ⟨rfl, -⟩ := List.append_eq_nil_iff.mp hnil.symm
      cases hrun
      exact absurd rfl hne

end CrossAssembler
