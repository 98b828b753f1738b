import CrossAssembler.Line.Classification
import Mathlib

/-!
# Parts of tokens

Tokens are cut, trimmed and split again and again. Whatever is done, a part of a token is a run of its
characters, and its place is moved by the bytes before that run.

Principal results: `Piece.cuts_of_mem_scan` — the pieces of a text begin and end between characters;
`Token.PartOf.of_mem_splitTopLevel`, `Token.partOf_splitFirstWord`, `Directive.partOf_splitArguments`,
`partOf_labelBefore` — what a line is split into are parts of it.
-/

namespace CrossAssembler

open Text

/-! ## Cutting text -/

namespace Text

theorem sliceBytes_append (before piece after : List Char) :
    sliceBytes (byteLength before) (byteLength before + byteLength piece) (before ++ piece ++ after) = piece := by
  rw [sliceBytes, List.append_assoc, dropBytes_append, Nat.add_sub_cancel_left, takeBytes_append]

theorem exists_trim_append (cs : List Char) : ∃ after, cs = cs.takeWhile isBlank ++ trim cs ++ after := by
  refine ⟨((cs.dropWhile isBlank).reverse.takeWhile isBlank).reverse, ?_⟩
  rw [trim, trimEnd, trimStart, List.append_assoc, ← List.reverse_append, List.takeWhile_append_dropWhile,
    List.reverse_reverse, List.takeWhile_append_dropWhile]

end Text

theorem piecesFrom_ne_nil (separator : Char) (n : Nesting) (cs : List Char) : piecesFrom separator n cs ≠ [] := by
  cases cs with
  | nil => exact List.cons_ne_nil _ _
  | cons c cs =>
    unfold piecesFrom
    simp only
    split
    · exact List.cons_ne_nil _ _
    · split
      · exact List.cons_ne_nil _ _
      · exact List.cons_ne_nil _ _

theorem intercalate_piecesFrom (separator : Char) (n : Nesting) (cs : List Char) :
    [separator].intercalate (piecesFrom separator n cs) = cs := by
  induction cs generalizing n with
  | nil => rfl
  | cons c cs ih =>
    have hrest := ih (n.step c)
    unfold piecesFrom
    simp only
    split
    · rename_i hfree
      have hc : c = separator := eq_of_beq (Bool.and_eq_true _ _ ▸ hfree).2
      rw [List.intercalate_cons_of_ne_nil (piecesFrom_ne_nil _ _ _), hrest, hc]
      rfl
    split
    · rename_i hnil
      exact absurd hnil (piecesFrom_ne_nil _ _ _)
    rename_i piece pieces hcons
    rw [hcons] at hrest
    cases pieces with
    | nil =>
      rw [List.intercalate_singleton] at hrest ⊢
      rw [hrest]
    | cons next pieces =>
      rw [List.intercalate_cons_cons] at hrest ⊢
      rw [List.cons_append, List.cons_append, hrest]

/-! ## Pieces -/

namespace Piece

/-- Whether a byte range begins and ends between characters of a text. -/
def Cuts (cs : List Char) (p : Piece) : Prop :=
  ∃ before piece after, cs = before ++ piece ++ after ∧ p.start = byteLength before ∧
    p.stop = byteLength before + byteLength piece

theorem utf8Size_of_isGap {c : Char} (h : isGap c = true) : c.utf8Size = 1 := by
  simp only [isGap, Bool.or_eq_true, beq_iff_eq] at h
  rcases h with ((rfl | rfl) | rfl) | rfl <;> rfl

theorem byteLength_takeWhile_isGap (cs : List Char) :
    byteLength (cs.takeWhile isGap) = (cs.takeWhile isGap).length := by
  induction cs with
  | nil => rfl
  | cons c cs ih =>
    rw [List.takeWhile_cons]
    split
    · rename_i hgap
      rw [byteLength_cons, List.length_cons, ih, utf8Size_of_isGap hgap, Nat.add_comm]
    · rfl

theorem cuts_of_mem_scanFrom (before : List Char) {bound offset : Nat} {text : List Char}
    (hoffset : offset = byteLength before) {p : Piece} (h : p ∈ scanFrom bound offset text) :
    p.Cuts (before ++ text) := by
  induction bound generalizing before offset text with
  | zero => cases h
  | succ bound ih =>
    unfold scanFrom at h
    simp only at h
    split at h
    · cases h
    rename_i c cs hrest
    have hgaps : offset + (text.takeWhile isGap).length = byteLength (before ++ text.takeWhile isGap) := by
      rw [byteLength_append, hoffset, byteLength_takeWhile_isGap]
    have htext : text = text.takeWhile isGap ++ (c :: cs) := by
      rw [← hrest, List.takeWhile_append_dropWhile]
    have hcut := List.take_append_drop (leading c cs).2 (c :: cs)
    rw [hgaps] at h
    generalize text.takeWhile isGap = gaps at h htext
    generalize (c :: cs).take (leading c cs).2 = piece at h hcut
    generalize (c :: cs).drop (leading c cs).2 = after at h hcut
    rw [htext, ← hcut, ← List.append_assoc, ← List.append_assoc]
    rcases List.mem_cons.mp h with rfl | h
    · exact ⟨before ++ gaps, piece, after, rfl, rfl, rfl⟩
    · exact ih _ (byteLength_append _ _).symm h

theorem cuts_of_mem_scan {cs : List Char} {p : Piece} (h : p ∈ scan cs) : p.Cuts cs :=
  cuts_of_mem_scanFrom [] rfl h

end Piece

namespace Token

/-- Whether a token is a run of the characters of another, in its place. -/
structure PartOf (u t : Token) : Prop where
  source : u.source = t.source
  line : u.line = t.line
  cut : ∃ before after, t.text.toList = before ++ u.text.toList ++ after ∧
    u.column = t.column + byteLength before ∧ u.offset = t.offset + byteLength before

namespace PartOf

variable {t u v : Token}

theorem refl (t : Token) : t.PartOf t := ⟨rfl, rfl, [], [], by simp, rfl, rfl⟩

theorem trans (h : v.PartOf u) (h' : u.PartOf t) : v.PartOf t := by
  obtain ⟨before, after, htext, hcolumn, hoffset⟩ := h.cut
  obtain ⟨before', after', htext', hcolumn', hoffset'⟩ := h'.cut
  refine ⟨h.source.trans h'.source, h.line.trans h'.line, before' ++ before, after ++ after', ?_, ?_, ?_⟩
  · rw [htext', htext]
    simp only [List.append_assoc]
  · rw [hcolumn, hcolumn', byteLength_append, Nat.add_assoc]
  · rw [hoffset, hoffset', byteLength_append, Nat.add_assoc]

theorem offset_le (h : u.PartOf t) : t.offset ≤ u.offset := by
  obtain ⟨before, _, -, -, hoffset⟩ := h.cut
  rw [hoffset]
  exact Nat.le_add_right _ _

theorem stop_le (h : u.PartOf t) : u.offset + u.text.utf8ByteSize ≤ t.offset + t.text.utf8ByteSize := by
  obtain ⟨before, after, htext, -, hoffset⟩ := h.cut
  have hsize := congrArg byteLength htext
  rw [byteLength_append, byteLength_append, byteLength_toList, byteLength_toList] at hsize
  omega

end PartOf

variable {t : Token}
variable {after : List Char}

theorem partOf_place (before : List Char) {cs : List Char}
    (h : t.text.toList = before ++ cs ++ after) : (t.place (byteLength before) cs).PartOf t :=
  ⟨rfl, rfl, before, after, by rw [h, place, String.toList_ofList], rfl, rfl⟩

theorem partOf_trimmed (t : Token) : t.trimmed.PartOf t := by
  obtain ⟨after, h⟩ := exists_trim_append t.text.toList
  exact partOf_place _ h

theorem partOf_slice (before : List Char) {piece : List Char} {start stop : Nat}
    (h : t.text.toList = before ++ piece ++ after) (hstart : start = byteLength before)
    (hstop : stop = byteLength before + byteLength piece) : (t.slice start stop).PartOf t := by
  rw [slice, hstart, hstop, h, sliceBytes_append]
  exact partOf_place before h

theorem partOf_sliceFrom (before : List Char) {start : Nat}
    (h : t.text.toList = before ++ after) (hstart : start = byteLength before) : (t.sliceFrom start).PartOf t := by
  refine partOf_slice before (h.trans (List.append_nil _).symm) hstart ?_
  rw [← byteLength_toList, h, byteLength_append]

theorem partOf_withoutColon (t : Token) : t.withoutColon.PartOf t := by
  unfold withoutColon
  simp only
  split
  · rename_i hlast
    have hne : t.text.toList ≠ [] := by
      intro h
      rw [h] at hlast
      cases hlast
    exact (partOf_trimmed _).trans (partOf_place [] (List.dropLast_append_getLast hne).symm)
  · exact .refl t

theorem PartOf.of_mem_placeAll {separator : Char} (pieces : List (List Char)) (before : List Char)
    (h : t.text.toList = before ++ [separator].intercalate pieces) {u : Token}
    (hu : u ∈ t.placeAll separator.utf8Size (byteLength before) pieces) : u.PartOf t := by
  induction pieces generalizing before with
  | nil => cases hu
  | cons piece pieces ih =>
    cases pieces with
    | nil =>
      rw [List.intercalate_singleton] at h
      obtain rfl := List.mem_singleton.mp hu
      exact (partOf_trimmed _).trans (partOf_place before (h.trans (List.append_nil _).symm))
    | cons next pieces =>
      rw [List.intercalate_cons_cons, List.append_assoc piece, ← List.append_assoc before] at h
      rcases List.mem_cons.mp hu with rfl | hu
      · exact (partOf_trimmed _).trans (partOf_place before h)
      · refine ih (before ++ piece ++ [separator]) (h.trans (List.append_assoc _ _ _).symm) ?_
        rw [byteLength_append, byteLength_append]
        exact hu

theorem PartOf.of_mem_splitTopLevel {separator : Char} {u : Token} (hu : u ∈ t.splitTopLevel separator) :
    u.PartOf t := by
  unfold splitTopLevel at hu
  simp only at hu
  split at hu
  · cases hu
  · exact .of_mem_placeAll _ [] (intercalate_piecesFrom separator .start t.text.toList).symm hu

theorem partOf_splitFirstWord (t : Token) : t.splitFirstWord.1.PartOf t ∧ t.splitFirstWord.2.PartOf t ∧
    t.splitFirstWord.1.offset ≤ t.splitFirstWord.2.offset := by
  unfold splitFirstWord
  simp only
  have hcut : t.trimmed.text.toList = t.trimmed.text.toList.takeWhile (fun c => !(isBlank c || c == ',')) ++
        t.trimmed.text.toList.dropWhile (fun c => !(isBlank c || c == ',')) :=
    List.takeWhile_append_dropWhile.symm
  generalize t.trimmed.text.toList.takeWhile (fun c => !(isBlank c || c == ',')) = word at hcut ⊢
  have hrest : ((t.trimmed.sliceFrom (byteLength word)).trimmed).PartOf t.trimmed :=
    (partOf_trimmed _).trans (partOf_sliceFrom word hcut rfl)
  generalize (t.trimmed.sliceFrom (byteLength word)).trimmed = rest at hrest ⊢
  have htail : (if rest.text.toList.head? = some ',' then (rest.sliceFrom 1).trimmed else rest).PartOf rest := by
    split
    · rename_i hcomma
      obtain ⟨cs, hcs⟩ := List.head?_eq_some_iff.mp hcomma
      exact (partOf_trimmed _).trans (partOf_sliceFrom [','] hcs rfl)
    · exact .refl rest
  have hwhole := partOf_trimmed t
  exact ⟨(partOf_place [] hcut).trans hwhole, (htail.trans hrest).trans hwhole, (htail.trans hrest).offset_le⟩

end Token

/-! ## Lines -/

theorem partOf_labelBefore {content label : Token} {before after : List Char} {stop : Nat}
    (h : content.text.toList = before ++ after) (hstop : stop = byteLength before)
    (hlabel : labelBefore content stop = some label) : label.PartOf content := by
  have hslice : (content.slice 0 stop).PartOf content :=
    Token.partOf_slice [] h rfl (hstop.trans (Nat.zero_add _).symm)
  unfold labelBefore at hlabel
  simp only at hlabel
  split at hlabel
  · cases hlabel
  · rw [← Option.some.inj hlabel]
    exact ((Token.partOf_withoutColon _).trans (Token.partOf_trimmed _)).trans hslice

namespace Directive

/-- The arguments of a directive are parts of the text after its keyword. -/
theorem partOf_splitArguments {d : Directive} {rest t : Token} (h : t ∈ d.splitArguments rest) : t.PartOf rest := by
  have htrimmed := Token.partOf_trimmed rest
  obtain ⟨hword, htail, -⟩ := Token.partOf_splitFirstWord rest.trimmed
  unfold splitArguments at h
  simp only at h
  split at h
  · exact (Token.PartOf.of_mem_splitTopLevel h).trans htrimmed
  · split at h
    · cases h
    · rw [List.mem_singleton.mp h]
      exact htrimmed
  · split at h
    · cases h
    split at h
    · rw [List.mem_singleton.mp h]
      exact hword.trans htrimmed
    · rcases List.mem_cons.mp h with rfl | h
      · exact hword.trans htrimmed
      · rw [List.mem_singleton.mp h]
        exact htail.trans htrimmed
  · split at h
    · cases h
    · rcases List.mem_cons.mp h with rfl | h
      · exact hword.trans htrimmed
      · exact (Token.PartOf.of_mem_splitTopLevel h).trans (htail.trans htrimmed)

theorem offset_le_of_parameter {rest name t : Token} {parameters : List Token}
    (h : macroBlock.splitArguments rest = name :: parameters) (ht : t ∈ parameters) :
    name.offset ≤ t.offset := by
  have horder := (Token.partOf_splitFirstWord rest.trimmed).2.2
  have hstyle : macroBlock.spec.style = .nameList := rfl
  unfold splitArguments at h
  simp only [hstyle] at h
  split at h
  · cases h
  · obtain ⟨rfl, rfl⟩ := List.cons.inj h
    exact Nat.le_trans horder (Token.PartOf.of_mem_splitTopLevel ht).offset_le

end Directive

end CrossAssembler
