import CrossAssembler.Proofs.Instruction.Cutting
import CrossAssembler.Proofs.Instruction.Tables
import CrossAssembler.Text.Bytes

/-!
# Matching operands

Principal results: `covers_of_cut` — the ranges of the parts of a cut cover it; `forms_in_order` — forms with
more literal characters come first, and forms with equally many in the order of the table;
`matchOperand_meaning` — on every processor an operand is matched exactly when a form applies to it, the
form is the first of those with the most literal characters, and its parts are those of the rightmost cut.
-/

namespace CrossAssembler

variable {f : Form}

/-! ## Byte ranges -/

theorem Text.isBoundary_append (xs ys : List Char) : Text.isBoundary (Text.byteLength xs) (xs ++ ys) = true := by
  induction xs with
  | nil => cases ys <;> rfl
  | cons c cs ih =>
    have hc : 0 < c.utf8Size := c.utf8Size_pos
    obtain ⟨n, hn⟩ : ∃ n, c.utf8Size + byteLength cs = n + 1 :=
      ⟨c.utf8Size + byteLength cs - 1, by omega⟩
    have hr : n + 1 - c.utf8Size = byteLength cs := by omega
    rw [byteLength_cons, hn, List.cons_append, isBoundary, hr, ih, Bool.and_true, decide_eq_true_eq]
    omega

namespace Operand

variable {g : Glyph}

/-- Whether glyphs stand behind one another. -/
def Ordered (gs : List Glyph) : Prop := gs.Pairwise fun g h => g.offset + g.size ≤ h.offset

theorem character_of_mem_viewFrom {q : Text.Quoting} {offset : Nat} {cs : List Char}
    (h : g ∈ viewFrom q offset cs) : ∃ before c after, cs = before ++ c :: after ∧
      g.offset = offset + Text.byteLength before ∧ g.size = c.utf8Size := by
  induction cs generalizing q offset with
  | nil => cases h
  | cons c cs ih =>
    have hrest : g ∈ viewFrom (q.step c) (offset + c.utf8Size) cs → ∃ before d after, c :: cs = before ++ d :: after ∧
          g.offset = offset + Text.byteLength before ∧ g.size = d.utf8Size := by
      intro hg
      obtain ⟨before, d, after, rfl, hoffset, hsize⟩ := ih hg
      refine ⟨c :: before, d, after, rfl, ?_, hsize⟩
      rw [hoffset, Text.byteLength_cons, Nat.add_assoc]
    unfold viewFrom at h
    simp only at h
    split at h
    · rcases List.mem_cons.mp h with rfl | h
      · exact ⟨[], c, cs, rfl, rfl, rfl⟩
      · exact hrest h
    · split at h
      · exact hrest h
      · rcases List.mem_cons.mp h with rfl | h
        · exact ⟨[], c, cs, rfl, rfl, rfl⟩
        · exact hrest h

theorem ordered_viewFrom (q : Text.Quoting) (offset : Nat) (cs : List Char) : Ordered (viewFrom q offset cs) := by
  induction cs generalizing q offset with
  | nil => exact .nil
  | cons c cs ih =>
    have hrest : ∀ g ∈ viewFrom (q.step c) (offset + c.utf8Size) cs, offset + c.utf8Size ≤ g.offset := by
      intro g hg
      obtain ⟨_, _, _, _, hoffset, _⟩ := character_of_mem_viewFrom hg
      omega
    unfold viewFrom
    simp only
    split
    · exact .cons hrest (ih _ _)
    · split
      · exact ih _ _
      · exact .cons hrest (ih _ _)

theorem size_pos_of_mem_view {operand : String} (h : g ∈ view operand) : 0 < g.size := by
  obtain ⟨_, c, _, _, _, hsize⟩ := character_of_mem_viewFrom h
  exact hsize ▸ c.utf8Size_pos

theorem isBoundary_of_mem_view {operand : String} (h : g ∈ view operand) :
    Text.isBoundary g.offset operand.toList = true ∧ Text.isBoundary (g.offset + g.size) operand.toList = true := by
  obtain ⟨before, c, after, heq, hoffset, hsize⟩ := character_of_mem_viewFrom h
  rw [Nat.zero_add] at hoffset
  rw [heq, hsize, hoffset]
  refine ⟨Text.isBoundary_append before (c :: after), ?_⟩
  have hend := Text.isBoundary_append (before ++ [c]) after
  rwa [Text.byteLength_append, Text.byteLength_cons, Text.byteLength_nil, Nat.add_zero,
    List.append_assoc, List.singleton_append] at hend

theorem range_of_ne_nil {gs : List Glyph} (h : gs ≠ []) :
    ∃ first rest before last, gs = first :: rest ∧ gs = before ++ [last] ∧
      range gs = (first.offset, last.offset + last.size) := by
  obtain ⟨first, rest, rfl⟩ := List.exists_cons_of_ne_nil h
  obtain ⟨before, last, hlast⟩ := (List.eq_nil_or_concat' (first :: rest)).resolve_left h
  refine ⟨first, rest, before, last, rfl, hlast, ?_⟩
  rw [range, List.head?_cons, hlast, List.getLast?_concat]
  rfl

theorem filter_range {gs part : List Glyph} (hordered : Ordered gs) (hsize : ∀ g ∈ gs, 0 < g.size)
    (hpart : part ≠ []) (hrun : part <:+: gs) :
    gs.filter (fun g => (range part).1 ≤ g.offset && g.offset < (range part).2) = part := by
  obtain ⟨first, rest, init, last, hfirst, hlast, hrange⟩ := range_of_ne_nil hpart
  obtain ⟨before, after, rfl⟩ := hrun
  have hmemFirst : first ∈ part := by simp [hfirst]
  have hmemLast : last ∈ part := by simp [hlast]
  obtain ⟨hfront, -, hbehind⟩ := List.pairwise_append.mp hordered
  obtain ⟨-, hinside, hbefore⟩ := List.pairwise_append.mp hfront
  rw [hrange]
  simp only [List.filter_append]
  have hbeforeNone : before.filter (fun g => first.offset ≤ g.offset && g.offset < last.offset + last.size) = [] := by
    rw [List.filter_eq_nil_iff]
    intro g hg
    have := hbefore g hg first hmemFirst
    have := hsize g (by simp [hg])
    simp only [Bool.and_eq_true, decide_eq_true_eq]
    omega
  have hafterNone : after.filter (fun g => first.offset ≤ g.offset && g.offset < last.offset + last.size) = [] := by
    rw [List.filter_eq_nil_iff]
    intro g hg
    have := hbehind last (by simp [hmemLast]) g hg
    simp only [Bool.and_eq_true, decide_eq_true_eq]
    omega
  have hinsideAll : part.filter (fun g => first.offset ≤ g.offset && g.offset < last.offset + last.size) = part := by
    rw [List.filter_eq_self]
    intro g hg
    have hfrom : first.offset ≤ g.offset := by
      rw [hfirst] at hg hinside
      rcases List.mem_cons.mp hg with rfl | hg
      · exact Nat.le_refl _
      · have := List.rel_of_pairwise_cons hinside hg
        omega
    have hto : g.offset < last.offset + last.size := by
      have hpos := hsize g (by simp [hg])
      rw [hlast] at hg hinside
      rcases List.mem_append.mp hg with hg | hg
      · have := (List.pairwise_append.mp hinside).2.2 g hg last (by simp)
        omega
      · rw [List.mem_singleton.mp hg] at hpos ⊢
        omega
    rw [Bool.and_eq_true, decide_eq_true_eq, decide_eq_true_eq]
    exact ⟨hfrom, hto⟩
  rw [hbeforeNone, hinsideAll, hafterNone, List.nil_append, List.append_nil]

/-- Whether byte ranges of an operand hold the parts of a cut: each begins with the first character of its
part, ends with the last, and has no other ones of the view in it. They are not empty, begin and end at
characters, and stand one behind the other. -/
structure Covers (operand : String) (parts : List (List Glyph)) (slices : List (Nat × Nat)) : Prop where
  ranges : slices = parts.map range
  exact : ∀ part ∈ parts, (view operand).filter
    (fun g => (range part).1 ≤ g.offset && g.offset < (range part).2) = part
  nonempty : ∀ r ∈ slices, r.1 < r.2
  aligned : ∀ r ∈ slices, Text.isBoundary r.1 operand.toList = true ∧ Text.isBoundary r.2 operand.toList = true
  apart : slices.Pairwise fun r r' => r.2 ≤ r'.1

end Operand

namespace Pattern

open Operand

theorem Woven.parts {literals : List (List Char)} {parts : List (List Glyph)} {gs : List Glyph}
    (h : Woven literals parts gs) :
    (∀ part ∈ parts, part ≠ [] ∧ part <:+: gs) ∧ parts.flatten.Sublist gs := by
  induction h with
  | nil => exact ⟨nofun, .slnil⟩
  | @cons _ _ part written rest parts hpart _ _ _ ih =>
    refine ⟨List.forall_mem_cons.mpr ⟨⟨hpart, [], written ++ rest, by simp⟩, fun p hp => ?_⟩, ?_⟩
    · exact ⟨(ih.1 p hp).1, (ih.1 p hp).2.trans (List.suffix_append (part ++ written) rest).isInfix⟩
    · rw [List.flatten_cons, List.append_assoc]
      exact (List.Sublist.refl part).append (ih.2.trans (List.sublist_append_right written rest))

theorem Cut.parts {p : Pattern} {gs : List Glyph} {parts : List (List Glyph)} (h : p.Cut gs parts) :
    (∀ part ∈ parts, part ≠ [] ∧ part <:+: gs) ∧ parts.flatten.Sublist gs := by
  obtain ⟨written, rest, -, hwoven, rfl⟩ := h
  refine ⟨fun part hpart => ?_, hwoven.parts.2.trans (List.sublist_append_right written rest)⟩
  obtain ⟨hne, hrun⟩ := hwoven.parts.1 part hpart
  exact ⟨hne, hrun.trans (List.suffix_append written rest).isInfix⟩

/-- The ranges of the parts of a cut cover it. -/
theorem covers_of_cut {p : Pattern} {operand : String} {parts : List (List Glyph)}
    (h : p.Cut (view operand) parts) : Covers operand parts (parts.map range) := by
  obtain ⟨hrun, hflatten⟩ := h.parts
  have hordered : Ordered (view operand) := ordered_viewFrom _ _ _
  have hends : ∀ part ∈ parts, ∃ first ∈ part, ∃ last ∈ part, first ∈ view operand ∧
      last ∈ view operand ∧ first.offset ≤ last.offset ∧
      range part = (first.offset, last.offset + last.size) := by
    intro part hpart
    obtain ⟨hne, hin⟩ := hrun part hpart
    obtain ⟨first, rest, init, last, hfirst, hlast, hrange⟩ := range_of_ne_nil hne
    have hmemFirst : first ∈ part := by simp [hfirst]
    have hmemLast : last ∈ part := by simp [hlast]
    refine ⟨first, hmemFirst, last, hmemLast, hin.mem hmemFirst, hin.mem hmemLast, ?_, hrange⟩
    have hinside : Ordered part := hordered.sublist hin.sublist
    rw [hfirst] at hmemLast hinside
    rcases List.mem_cons.mp hmemLast with heq | hmem
    · rw [heq]
    · exact Nat.le_trans (Nat.le_add_right _ _) (List.rel_of_pairwise_cons hinside hmem)
  refine ⟨rfl, fun part hpart => ?_, ?_, ?_, ?_⟩
  · exact filter_range hordered (fun g hg => size_pos_of_mem_view hg) (hrun part hpart).1 (hrun part hpart).2
  · rintro _ hr
    obtain ⟨part, hpart, rfl⟩ := List.mem_map.mp hr
    obtain ⟨first, -, last, -, -, hlast, hle, hrange⟩ := hends part hpart
    have := size_pos_of_mem_view hlast
    rw [hrange]
    exact Nat.lt_of_le_of_lt hle (Nat.lt_add_of_pos_right this)
  · rintro _ hr
    obtain ⟨part, hpart, rfl⟩ := List.mem_map.mp hr
    obtain ⟨first, -, last, -, hfirst, hlast, -, hrange⟩ := hends part hpart
    rw [hrange]
    exact ⟨(isBoundary_of_mem_view hfirst).1, (isBoundary_of_mem_view hlast).2⟩
  · rw [List.pairwise_map]
    refine (List.pairwise_flatten.mp (hordered.sublist hflatten)).2.imp_of_mem ?_
    intro part part' hpart hpart' hbehind
    obtain ⟨_, _, last, hlast, _, _, _, hrange⟩ := hends part hpart
    obtain ⟨first, hfirst, _, _, _, _, _, hrange'⟩ := hends part' hpart'
    rw [hrange, hrange']
    exact hbehind last hlast first hfirst

end Pattern

/-! ## The order of forms -/

/-- What an entry has in common with the form it goes to. -/
def Entry.key (entry : Entry) : Pattern × Layout := (Pattern.ofText entry.pattern, entry.layout)

/-- What tells a form from the other forms of its mnemonic. -/
def Form.key (f : Form) : Pattern × Layout := (f.pattern, f.layout)

/-- The number of the first entry of a table for a mnemonic and a form. -/
def Entry.place (entries : List Entry) (m : String) (key : Pattern × Layout) : Nat :=
  entries.findIdx fun entry => entry.mnemonic = m ∧ entry.key = key

namespace InstructionSet

variable {m : String} {keys : List (Pattern × Layout)}

/-- Whether keys are those of the entries for a mnemonic, in the order of the table. -/
structure InOrder (entries : List Entry) (m : String) (keys : List (Pattern × Layout)) : Prop where
  mentioned : ∀ key, key ∈ keys ↔ ∃ entry ∈ entries, entry.mnemonic = m ∧ entry.key = key
  ordered : keys.Pairwise fun key key' => Entry.place entries m key < Entry.place entries m key'

theorem InOrder.place_lt_iff {entries : List Entry} (h : InOrder entries m keys) {key : Pattern × Layout} :
    Entry.place entries m key < entries.length ↔ key ∈ keys := by
  rw [Entry.place, List.findIdx_lt_length, h.mentioned]
  simp only [decide_eq_true_eq]

theorem place_append (entries : List Entry) (entry : Entry) (m : String) (key : Pattern × Layout) :
    Entry.place (entries ++ [entry]) m key =
      if Entry.place entries m key < entries.length then Entry.place entries m key
      else Entry.place [entry] m key + entries.length :=
  List.findIdx_append

theorem InOrder.append {entries : List Entry}
    (h : InOrder entries m keys) {entry : Entry} (hentry : entry.mnemonic = m → entry.key ∈ keys) :
    InOrder (entries ++ [entry]) m keys := by
  refine ⟨fun key => ?_, h.ordered.imp_of_mem fun hkey hkey' hlt => ?_⟩
  · rw [h.mentioned]
    constructor
    · rintro ⟨e, he, hmentions⟩
      exact ⟨e, List.mem_append_left _ he, hmentions⟩
    · rintro ⟨e, he, hm, rfl⟩
      rcases List.mem_append.mp he with he | he
      · exact ⟨e, he, hm, rfl⟩
      · rw [List.mem_singleton.mp he] at hm ⊢
        exact (h.mentioned entry.key).mp (hentry hm)
  · rwa [place_append, if_pos (h.place_lt_iff.mpr hkey), place_append, if_pos (h.place_lt_iff.mpr hkey')]

theorem InOrder.concat {entries : List Entry} {entry : Entry}
    (h : InOrder entries entry.mnemonic keys) (hnew : entry.key ∉ keys) :
    InOrder (entries ++ [entry]) entry.mnemonic (keys ++ [entry.key]) := by
  have hplace : ∀ {key}, key ∈ keys →
      Entry.place (entries ++ [entry]) entry.mnemonic key = Entry.place entries entry.mnemonic key := by
    intro key hkey
    rw [place_append, if_pos (h.place_lt_iff.mpr hkey)]
  refine ⟨fun key => ?_, List.pairwise_append.mpr ⟨?_, List.pairwise_singleton .., ?_⟩⟩
  · rw [List.mem_append, h.mentioned, List.mem_singleton]
    simp only [List.mem_append, List.mem_singleton, or_and_right, exists_or, exists_eq_left, true_and]
    rw [eq_comm]
  · refine h.ordered.imp_of_mem fun hkey hkey' hlt => ?_
    rwa [hplace hkey, hplace hkey']
  · intro key hkey key' hkey'
    rw [List.mem_singleton.mp hkey', hplace hkey, place_append, if_neg fun hlt => hnew (h.place_lt_iff.mp hlt)]
    exact Nat.lt_of_lt_of_le (h.place_lt_iff.mpr hkey) (Nat.le_add_left _ _)

theorem keys_addForm (pattern : Pattern) (layout : Layout) (e : Encoding) (fs : List Form) :
    (addForm pattern layout e fs).map Form.key = if (pattern, layout) ∈ fs.map Form.key then fs.map Form.key
      else fs.map Form.key ++ [(pattern, layout)] := by
  induction fs with
  | nil => rfl
  | cons f fs ih =>
    have hkey : (pattern, layout) = f.key ↔ f.pattern = pattern ∧ f.layout = layout := by
      rw [Form.key, Prod.mk.injEq, eq_comm, eq_comm (a := layout)]
    unfold addForm
    by_cases hsame : f.pattern = pattern ∧ f.layout = layout
    · have hmem : (pattern, layout) ∈ (f :: fs).map Form.key := by simp [hkey.mpr hsame]
      rw [if_pos hsame, if_pos hmem]
      split <;> rfl
    · have hne : (pattern, layout) ≠ f.key := fun h => hsame (hkey.mp h)
      rw [if_neg hsame, List.map_cons, ih, List.map_cons]
      by_cases hmem : (pattern, layout) ∈ fs.map Form.key
      · rw [if_pos hmem, if_pos (List.mem_cons_of_mem _ hmem)]
      · rw [if_neg hmem, if_neg (by simp [hne, hmem]), List.cons_append]

/-- The entries gathered by mnemonic, before they are sorted. -/
def gather (entries : List Entry) : Std.TreeMap String (List Form) :=
  entries.foldl (fun (table : Std.TreeMap String (List Form)) entry =>
    let added := addForm (Pattern.ofText entry.pattern) entry.layout ⟨entry.width, entry.opcode⟩
      (table.getD entry.mnemonic [])
    table.insert entry.mnemonic added) ∅

theorem ofEntries_eq (entries : List Entry) : ofEntries entries = ⟨(gather entries).map fun _ fs => arrange fs⟩ := rfl

theorem inOrder_gather (entries : List Entry) (m : String) :
    InOrder entries m (((gather entries).getD m []).map Form.key) := by
  induction entries using List.reverseRecOn with
  | nil => exact ⟨by simp [gather], by simp [gather]⟩
  | append_singleton entries entry ih =>
    rw [gather, List.foldl_append, List.foldl_cons, List.foldl_nil]
    simp only
    rw [← gather, Std.TreeMap.getD_insert]
    split
    · rename_i heq
      rw [Std.LawfulEqOrd.compare_eq_iff_eq] at heq
      subst heq
      rw [keys_addForm]
      split
      · rename_i hmem
        exact ih.append fun _ => hmem
      · rename_i hmem
        exact ih.concat hmem
    · rename_i hne
      exact ih.append fun heq => absurd (Std.LawfulEqOrd.compare_eq_iff_eq.mpr heq) hne

theorem filter_mergeSort {α : Type} {le : α → α → Bool} (htrans : ∀ a b c, le a b → le b c → le a c)
    (htotal : ∀ a b, le a b || le b a) {p : α → Bool} (hp : ∀ a b, p a → p b → le a b) (l : List α) :
    (l.mergeSort le).filter p = l.filter p := by
  have hkept : (l.filter p).Sublist (l.mergeSort le) := by
    refine List.sublist_mergeSort htrans htotal ?_ List.filter_sublist
    refine List.pairwise_of_forall_mem_list fun a ha b hb => hp a b ?_ ?_
    · exact (List.mem_filter.mp ha).2
    · exact (List.mem_filter.mp hb).2
  have hsub := hkept.filter p
  rw [List.filter_filter] at hsub
  simp only [Bool.and_self] at hsub
  exact (hsub.eq_of_length ((List.mergeSort_perm l le).filter p).length_eq.symm).symm

/-- **The order of forms.** Forms with more literal characters come first, and those with equally many
in the order in which the table mentions them. -/
theorem forms_in_order {entries : List Entry} {fs : List Form} (h : (ofEntries entries).forms[m]? = some fs) :
    fs.Pairwise fun f g => g.pattern.literalLength ≤ f.pattern.literalLength ∧
      (g.pattern.literalLength = f.pattern.literalLength →
        Entry.place entries m f.key < Entry.place entries m g.key) := by
  rw [ofEntries_eq, Std.TreeMap.getElem?_map, Option.map_eq_some_iff] at h
  obtain ⟨gathered, hget, rfl⟩ := h
  have hordered := (inOrder_gather entries m).ordered
  rw [Std.TreeMap.getD_eq_getD_getElem?, hget, Option.getD_some] at hordered
  unfold arrange
  simp only
  set sorted := gathered.map fun f =>
    { f with encodings := f.encodings.mergeSort fun a b => a.width ≤ b.width } with hsorted
  have hkeys : sorted.map Form.key = gathered.map Form.key := by
    rw [hsorted, List.map_map]
    rfl
  rw [← hkeys, List.pairwise_map] at hordered
  have htrans : ∀ a b c : Form, decide (b.pattern.literalLength ≤ a.pattern.literalLength) →
      decide (c.pattern.literalLength ≤ b.pattern.literalLength) →
      decide (c.pattern.literalLength ≤ a.pattern.literalLength) := by
    simp only [decide_eq_true_eq]
    intro a b c hab hbc
    exact Nat.le_trans hbc hab
  have htotal : ∀ a b : Form, decide (b.pattern.literalLength ≤ a.pattern.literalLength) ||
      decide (a.pattern.literalLength ≤ b.pattern.literalLength) := by
    intro a b
    rw [Bool.or_eq_true, decide_eq_true_eq, decide_eq_true_eq]
    exact Nat.le_total ..
  rw [List.pairwise_iff_forall_sublist]
  intro f g hpair
  have hlength := List.pairwise_iff_forall_sublist.mp (List.pairwise_mergeSort htrans htotal sorted) hpair
  rw [decide_eq_true_eq] at hlength
  refine ⟨hlength, fun hequal => ?_⟩
  -- among the forms with equally many literal characters nothing has moved
  have hfilter := filter_mergeSort htrans htotal
    (p := fun a : Form => a.pattern.literalLength = f.pattern.literalLength)
    (fun a b ha hb => by simp only [decide_eq_true_eq] at ha hb ⊢; omega) sorted
  have hkept := hpair.filter fun a : Form => a.pattern.literalLength = f.pattern.literalLength
  rw [hfilter] at hkept
  simp only [List.filter_cons, List.filter_nil, hequal, decide_true, if_true] at hkept
  exact List.pairwise_iff_forall_sublist.mp hordered (hkept.trans List.filter_sublist)

end InstructionSet

/-! ## The tables -/

/-- The table of a processor. -/
def Platform.entries : Platform → List Entry
  | mos6502 => Table65816.entries6502
  | w65816 => Table65816.entries65816
  | sm83 => TableSm83.entries
  | spc700 => TableSpc700.entries

theorem Platform.instructions_eq (platform : Platform) : platform.instructions = .ofEntries platform.entries := by
  cases platform <;> rfl

/-- Where the table of a processor first mentions a form of a mnemonic. -/
def Platform.place (platform : Platform) (mnemonic : String) (f : Form) : Nat :=
  Entry.place platform.entries (Text.lower mnemonic) f.key

/-- Whether an operand can be cut by the pattern of a form. -/
def Form.AppliesTo (f : Form) (operand : String) : Prop :=
  ∃ parts, f.pattern.Cut (Operand.view operand) parts

/-- Whether an entry takes at most two operands, or three of a shape that joins. -/
def Entry.IsShort (entry : Entry) : Prop :=
  entry.layout.placeholders ≤ 2 ∨ entry.pattern = "[exp].[exp],[exp]"

instance (entry : Entry) : Decidable entry.IsShort := inferInstanceAs (Decidable (_ ∨ _))

set_option maxRecDepth 100000 in
theorem Platform.entries_short (platform : Platform) : ∀ entry ∈ platform.entries, entry.IsShort := by
  cases platform <;> decide +kernel

set_option maxRecDepth 20000 in
theorem Pattern.joins_dot_comma : (Pattern.ofText "[exp].[exp],[exp]").Joins := by
  have hothers : (Pattern.ofText "[exp].[exp],[exp]").others = [['.'], [','], []] := by rfl
  rw [Joins, hothers]
  intro literal hliteral
  rw [show literal = ['.'] from List.mem_singleton.mp hliteral]
  simp [IsNeutral]

theorem InstructionSet.mentioned_of_mem {entries : List Entry} {m : String} {fs : List Form}
    (h : (ofEntries entries).forms[m]? = some fs) (hf : f ∈ fs) :
    ∃ entry ∈ entries, entry.key = f.key := by
  rw [ofEntries_eq, Std.TreeMap.getElem?_map, Option.map_eq_some_iff] at h
  obtain ⟨gathered, hget, rfl⟩ := h
  have hmentioned := (inOrder_gather entries m).mentioned f.key
  rw [Std.TreeMap.getD_eq_getD_getElem?, hget, Option.getD_some] at hmentioned
  rw [arrange, List.mem_mergeSort, List.mem_map] at hf
  obtain ⟨g, hg, rfl⟩ := hf
  obtain ⟨entry, hentry, -, hkey⟩ := hmentioned.mp (List.mem_map.mpr ⟨g, hg, rfl⟩)
  exact ⟨entry, hentry, hkey⟩

/-- On every processor the patterns join: at most one of their literals between placeholders is a comma. -/
theorem Platform.joins (platform : Platform) {m : String} {fs : List Form}
    (h : platform.instructions.forms[m]? = some fs) (hf : f ∈ fs) : f.pattern.Joins := by
  have hsound := (platform.forms_sound h f hf).placeholders
  rw [platform.instructions_eq] at h
  obtain ⟨entry, hentry, hkey⟩ := InstructionSet.mentioned_of_mem h hf
  rw [Entry.key, Form.key, Prod.mk.injEq] at hkey
  rcases platform.entries_short entry hentry with hfew | hthree
  · have hlength : f.pattern.others.length ≤ 2 := by
      rw [← Pattern.placeholders, hsound, ← hkey.2]
      exact hfew
    have hnone : f.pattern.others.dropLast.dropLast = [] :=
      List.eq_nil_of_length_eq_zero (by simp only [List.length_dropLast]; omega)
    intro literal hliteral
    rw [hnone] at hliteral
    cases hliteral
  · rw [← hkey.1, hthree]
    exact Pattern.joins_dot_comma

/-! ## Matching an operand -/

/-- The first form that matches, and the parts of its rightmost cut. -/
theorem InstructionSet.matchForm_eq_some {forms : List Form} (hjoins : ∀ f ∈ forms, f.pattern.Joins)
    {glyphs : List Operand.Glyph} {parts : List (List Operand.Glyph)}
    (h : matchForm? forms glyphs = some (f, parts)) :
    f.pattern.Rightmost glyphs parts ∧ ∃ before after, forms = before ++ f :: after ∧
      ∀ g ∈ before, ∀ others, ¬ g.pattern.Cut glyphs others := by
  obtain ⟨before, f', after, rfl, hmatch, hbefore⟩ := List.findSome?_eq_some_iff.mp h
  obtain ⟨parts', hparts, heq⟩ := Option.map_eq_some_iff.mp hmatch
  cases heq
  refine ⟨⟨Pattern.cut_of_match hparts, fun others hothers => ?_⟩, before, after, rfl, ?_⟩
  · obtain ⟨found, hfound, hright⟩ := Pattern.match_of_cut (hjoins f (by simp)) hothers
    rw [hparts, Option.some.injEq] at hfound
    rw [hfound]
    exact hright
  · intro g hg others hothers
    obtain ⟨found, hfound, -⟩ := Pattern.match_of_cut (hjoins g (by simp [hg])) hothers
    have hnone := hbefore g hg
    rw [hfound] at hnone
    cases hnone

/-- **Matching an operand.** An operand of an instruction is matched exactly when one of the forms of the
instruction applies to it. The form that is found applies, and of all forms that apply it has the most
literal characters; where several have as many, the table of the processor mentions it first. The byte
ranges that are found cover the parts of the cut whose literals, taken from the right, stand furthest to
the right. -/
theorem matchOperand_meaning (platform : Platform) {mnemonic : String} {forms : List Form}
    (hforms : platform.instructions.forms? mnemonic = some forms) (operand : String) :
    ((∃ found, platform.instructions.matchOperand mnemonic operand = .ok found) ↔ ∃ f ∈ forms, f.AppliesTo operand) ∧
    ∀ f slices, platform.instructions.matchOperand mnemonic operand = .ok (f, slices) → f ∈ forms ∧
      (∀ g ∈ forms, g.AppliesTo operand → g.pattern.literalLength ≤ f.pattern.literalLength ∧
        (g ≠ f → g.pattern.literalLength = f.pattern.literalLength →
          platform.place mnemonic f < platform.place mnemonic g)) ∧
      ∃ parts, f.pattern.Rightmost (Operand.view operand) parts ∧ Operand.Covers operand parts slices := by
  have hjoins : ∀ f ∈ forms, f.pattern.Joins := fun f hf => platform.joins hforms hf
  have horder : forms.Pairwise fun f g => g.pattern.literalLength ≤ f.pattern.literalLength ∧
      (g.pattern.literalLength = f.pattern.literalLength → platform.place mnemonic f < platform.place mnemonic g) :=
    InstructionSet.forms_in_order (platform.instructions_eq ▸ hforms)
  unfold InstructionSet.matchOperand
  rw [hforms]
  simp only
  cases hmatch : InstructionSet.matchForm? forms (Operand.view operand) with
  | none =>
    refine ⟨iff_of_false nofun ?_, nofun⟩
    rintro ⟨f, hf, parts, hcut⟩
    obtain ⟨found, hfound, -⟩ := Pattern.match_of_cut (hjoins f hf) hcut
    have hnone := List.findSome?_eq_none_iff.mp hmatch f hf
    rw [hfound] at hnone
    cases hnone
  | some found =>
    obtain ⟨f, parts⟩ := found
    obtain ⟨hright, before, after, rfl, hbefore⟩ := InstructionSet.matchForm_eq_some hjoins hmatch
    refine ⟨iff_of_true ⟨_, rfl⟩ ⟨f, by simp, parts, hright.1⟩, ?_⟩
    rintro _ _ ⟨⟩
    refine ⟨by simp, fun g hg happlies => ?_, parts, hright, Pattern.covers_of_cut hright.1⟩
    obtain ⟨others, hothers⟩ := happlies
    rcases List.mem_append.mp hg with hg | hg
    · exact absurd hothers (hbefore g hg others)
    · rcases List.mem_cons.mp hg with rfl | hg
      · exact ⟨Nat.le_refl _, fun hne => absurd rfl hne⟩
      · have hbehind := List.rel_of_pairwise_cons (List.pairwise_append.mp horder).2.1 hg
        exact ⟨hbehind.1, fun _ => hbehind.2⟩

set_option maxRecDepth 100000 in
/-- The dot that stands furthest to the right divides the address from the bit, and blanks do not count. -/
theorem matchOperand_meaning_bbs : let f : Form := ⟨.ofText "[exp].[exp],[exp]", .directBitRelative, [⟨2, [0x03]⟩]⟩
    Platform.spc700.instructions.forms? "BBS" = some [f] ∧
      Platform.spc700.instructions.matchOperand "BBS" "flags.ready. 3 , .wäit" =
        .ok (f, [(0, 11), (13, 14), (17, 23)]) ∧
      (∃ g ∈ [f], g.AppliesTo "flags.ready. 3 , .wäit") ∧
      ∃ parts, f.pattern.Rightmost (Operand.view "flags.ready. 3 , .wäit") parts ∧
        Operand.Covers "flags.ready. 3 , .wäit" parts [(0, 11), (13, 14), (17, 23)] := by
  intro f
  have hforms : Platform.spc700.instructions.forms? "BBS" = some [f] := by decide +kernel
  have hfound : Platform.spc700.instructions.matchOperand "BBS" "flags.ready. 3 , .wäit" =
      .ok (f, [(0, 11), (13, 14), (17, 23)]) := by
    rw [InstructionSet.matchOperand, hforms]
    decide +kernel
  obtain ⟨happlies, hmeaning⟩ := matchOperand_meaning .spc700 hforms "flags.ready. 3 , .wäit"
  exact ⟨hforms, hfound, happlies.mp ⟨_, hfound⟩, (hmeaning _ _ hfound).2.2⟩

end CrossAssembler
