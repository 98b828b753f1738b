import CrossAssembler.Proofs.Assembly.Hexadecimal
import CrossAssembler.Proofs.Assembly.Loading
import CrossAssembler.Proofs.Instruction.Matching
import CrossAssembler.Proofs.Source.Positions

/-!
# Spans and the texts they point into

Principal results: `inside_of_mem_classifySource` — all tokens of a source do when they are read;
`pairwise_classifySource` — its lines stand below each other.
-/

namespace CrossAssembler

open Text

/-- What places and numbers refer to: the instructions, the sources, how many lines there are and where they stand,
and how many labels there are. -/
structure Extent where
  set : InstructionSet
  sources : SourceStore
  lines : Nat
  origin : LineId → Token
  labels : Nat

/-- Whether everything in one extent is in another. -/
structure Extent.Le (e e' : Extent) : Prop where
  set : e'.set = e.set
  sources : ∀ id f, e.sources.get? id = some f → e'.sources.get? id = some f
  lines : e.lines ≤ e'.lines
  origin : ∀ id < e.lines, e'.origin id = e.origin id
  labels : e.labels ≤ e'.labels

namespace Extent.Le

variable {e e' e'' : Extent}

theorem refl (e : Extent) : Le e e := ⟨rfl, fun _ _ h => h, Nat.le_refl _, fun _ _ => rfl, Nat.le_refl _⟩

theorem trans (h : Le e e') (h' : Le e' e'') : Le e e'' where
  set := h'.set.trans h.set
  sources id f hf := h'.sources id f (h.sources id f hf)
  lines := h.lines.trans h'.lines
  origin id hid := (h'.origin id (Nat.lt_of_lt_of_le hid h.lines)).trans (h.origin id hid)
  labels := h.labels.trans h'.labels

end Extent.Le

/-- Whether a token stands on a line above another one of the same source. -/
def Token.Above (t u : Token) : Prop := t.source = u.source ∧ t.line < u.line

/-- Whether lines stand below each other in one source. -/
structure Extent.Ordered (e : Extent) (ids : List LineId) : Prop where
  lines : ∀ id ∈ ids, id < e.lines
  order : (ids.map e.origin).Pairwise Token.Above

namespace Extent.Ordered

variable {e e' : Extent} {id : LineId} {ids ids' : List LineId}

theorem mono (h : e.Ordered ids) (hle : e.Le e') : e'.Ordered ids := by
  refine ⟨fun id hid => Nat.lt_of_lt_of_le (h.lines id hid) hle.lines, ?_⟩
  rw [List.map_congr_left fun id hid => hle.origin id (h.lines id hid)]
  exact h.order

theorem sublist (h : e.Ordered ids) (hids : ids'.Sublist ids) : e.Ordered ids' :=
  ⟨fun id hid => h.lines id (hids.subset hid), h.order.sublist (hids.map e.origin)⟩

theorem nil (e : Extent) : e.Ordered [] := ⟨fun _ hid => absurd hid List.not_mem_nil, .nil⟩

theorem above (h : e.Ordered (id :: ids)) : ∀ j ∈ ids, (e.origin id).Above (e.origin j) :=
  List.forall_mem_map.mp (List.pairwise_cons.mp h.order).1

end Extent.Ordered

/-- Whether a span lies in the text of its source. -/
def Span.Within (e : Extent) (sp : Span) : Prop :=
  ∃ f, e.sources.get? sp.source = some f ∧ sp.start ≤ sp.stop ∧ sp.stop ≤ f.text.utf8ByteSize

/-- Whether a token lies in the text of its source. -/
def Token.Inside (e : Extent) (t : Token) : Prop := t.span.Within e

/-- Whether a directive begins a data group. -/
def Directive.isGroup (d : Directive) : Bool := d.opens .endGroup

/-- Whether a token is the label in front of a data group in a source. -/
def Token.NamesGroup (e : Extent) (owner : Token) : Prop :=
  ∃ f l part, e.sources.get? owner.source = some f ∧ l ∈ classifySource e.set owner.source f ∧
    l.label = some owner ∧ l.kind = .command part ∧ part.directive.isGroup = true

/-- Whether a token is the content of a line of a source. -/
def Token.IsLine (e : Extent) (t : Token) : Prop :=
  ∃ f l, e.sources.get? t.source = some f ∧ l ∈ classifySource e.set t.source f ∧ l.origin = t

/-- Whether a span is that of the label made by a row of a labelled data group. It begins where the name in front of
the row does, and is as long as the label, which begins with the label of the group. -/
def Span.OfRow (e : Extent) (sp : Span) : Prop :=
  ∃ owner row name : Token, owner.NamesGroup e ∧ row.IsLine e ∧ owner.Above row ∧
    (Assembly.splitRow row).1 = some name ∧ sp = ({ name with text := owner.text ++ "." ++ name.text } : Token).span

/-- Whether a span lies in the text of its source, or is that of the label made by a row of a labelled data
group. -/
def Span.Sited (e : Extent) (sp : Span) : Prop := sp.Within e ∨ sp.OfRow e

section

variable {e e' : Extent} {t u : Token} {sp : Span}

theorem Span.Within.mono (h : sp.Within e) (hle : e.Le e') : sp.Within e' := by
  obtain ⟨f, hf, hstart, hstop⟩ := h
  exact ⟨f, hle.sources _ f hf, hstart, hstop⟩

theorem Token.Inside.mono (h : t.Inside e) (hle : e.Le e') : t.Inside e' := Span.Within.mono h hle

theorem Token.NamesGroup.mono (h : t.NamesGroup e) (hle : e.Le e') : t.NamesGroup e' := by
  obtain ⟨f, l, part, hf, hl, hlabel⟩ := h
  exact ⟨f, l, part, hle.sources _ f hf, hle.set ▸ hl, hlabel⟩

theorem Token.IsLine.mono (h : t.IsLine e) (hle : e.Le e') : t.IsLine e' := by
  obtain ⟨f, l, hf, hl, horigin⟩ := h
  exact ⟨f, l, hle.sources _ f hf, hle.set ▸ hl, horigin⟩

theorem Span.Sited.mono (h : sp.Sited e) (hle : e.Le e') : sp.Sited e' := by
  refine h.imp (·.mono hle) ?_
  rintro ⟨owner, row, name, howner, hrow, hrest⟩
  exact ⟨owner, row, name, howner.mono hle, hrow.mono hle, hrest⟩

namespace Token.Inside

theorem of_le (h : t.Inside e) (hsource : u.source = t.source)
    (hstop : u.offset + u.text.utf8ByteSize ≤ t.offset + t.text.utf8ByteSize) : u.Inside e := by
  obtain ⟨f, hf, -, hle⟩ := h
  exact ⟨f, (congrArg e.sources.get? hsource).trans hf, Nat.le_add_right _ _, hstop.trans hle⟩

theorem part (h : t.Inside e) (hu : u.PartOf t) : u.Inside e := h.of_le hu.source hu.stop_le

theorem sited (h : t.Inside e) : t.span.Sited e := .inl h

theorem trimmed (h : t.Inside e) : t.trimmed.Inside e := h.part (partOf_trimmed t)

/-- A byte range of a token is kept within the token. -/
theorem subSpan (h : t.Inside e) (start stop : Nat) : (t.subSpan start stop).Within e := by
  obtain ⟨f, hf, -, hle⟩ := h
  refine ⟨f, hf, Nat.add_le_add_left (Nat.le_max_left _ _) _, Nat.le_trans ?_ hle⟩
  refine Nat.add_le_add_left (Nat.max_le.mpr ⟨?_, ?_⟩) _
  · exact Nat.min_le_right _ _
  · exact Nat.min_le_right _ _

end Token.Inside

end

/-! ## Byte ranges -/

theorem byteLength_dropBytes (n : Nat) (cs : List Char) : byteLength (dropBytes n cs) ≤ byteLength cs - n := by
  induction cs generalizing n with
  | nil => cases n <;> exact Nat.zero_le _
  | cons c cs ih =>
    cases n with
    | zero => exact Nat.le_refl _
    | succ n =>
      have hrest := ih (n + 1 - c.utf8Size)
      rw [dropBytes, byteLength_cons]
      omega

theorem byteLength_takeBytes (n : Nat) (cs : List Char) : byteLength (takeBytes n cs) ≤ byteLength cs := by
  induction cs generalizing n with
  | nil => cases n <;> exact Nat.le_refl _
  | cons c cs ih =>
    cases n with
    | zero => exact Nat.zero_le _
    | succ n => exact Nat.add_le_add_left (ih _) _

/-- A byte range that begins in a token lies in its source, even when it cuts a character. -/
theorem Token.Inside.slice {e : Extent} {t : Token} (h : t.Inside e) {start : Nat}
    (hstart : start ≤ t.text.utf8ByteSize) (stop : Nat) : (t.slice start stop).Inside e := by
  refine h.of_le rfl ?_
  have hdrop := byteLength_dropBytes start t.text.toList
  have htake := byteLength_takeBytes (stop - start) (dropBytes start t.text.toList)
  rw [byteLength_toList] at hdrop
  have htext : (t.slice start stop).text.utf8ByteSize ≤ t.text.utf8ByteSize - start := by
    unfold Token.slice place
    rw [utf8ByteSize_ofList]
    exact htake.trans hdrop
  have hoffset : (t.slice start stop).offset = t.offset + start := rfl
  omega

theorem le_of_isBoundary {n : Nat} {cs : List Char} (h : isBoundary n cs = true) : n ≤ byteLength cs := by
  induction cs generalizing n with
  | nil =>
    cases n with
    | zero => exact Nat.le_refl _
    | succ n => cases h
  | cons c cs ih =>
    cases n with
    | zero => exact Nat.zero_le _
    | succ n =>
      rw [isBoundary, Bool.and_eq_true] at h
      have hrest := ih h.2
      rw [byteLength_cons]
      omega

/-- The parts of an operand that a form takes begin in the operand. -/
theorem InstructionSet.start_le_of_matchOperand {set : InstructionSet} {mnemonic operand : String} {form : Form}
    {slices : List (Nat × Nat)} (h : set.matchOperand mnemonic operand = .ok (form, slices)) :
    ∀ r ∈ slices, r.1 ≤ operand.utf8ByteSize := by
  intro r hr
  unfold matchOperand at h
  split at h
  · cases h
  split at h
  · rename_i f parts hmatch
    cases h
    obtain ⟨part, hpart, rfl⟩ := List.mem_map.mp hr
    obtain ⟨f', -, hf'⟩ := List.exists_of_findSome?_eq_some hmatch
    obtain ⟨parts', hparts, heq⟩ := Option.map_eq_some_iff.mp hf'
    cases heq
    rw [← byteLength_toList]
    exact le_of_isBoundary ((Pattern.covers_of_cut (Pattern.cut_of_match hparts)).aligned _ hr).1
  · cases h

/-! ## Sources -/

section

variable {set : InstructionSet} {source : SourceId} {file : SourceFile} {l : ClassifiedLine}

theorem inside_of_mem_classifySource {e : Extent} (hfile : e.sources.get? source = some file)
    (h : l ∈ classifySource set source file) : ∀ t ∈ l.tokens, t.Inside e ∧ t.source = source := by
  intro t ht
  obtain ⟨line, hline, hparts⟩ := partOf_of_mem_classifyLines h
  obtain ⟨⟨before, after, htext, hoffset, -⟩, -⟩ := standsIn_of_mem_lines source hline
  have hinside : (line.token source).Inside e := by
    refine ⟨file, hfile, Nat.le_add_right _ _, ?_⟩
    have hsize := congrArg byteLength htext
    rw [byteLength_append, byteLength_append, byteLength_toList, byteLength_toList] at hsize
    have hstop : (line.token source).span.stop =
        (line.token source).offset + (line.token source).text.utf8ByteSize := rfl
    omega
  exact ⟨hinside.part (hparts t ht), (hparts t ht).source⟩

theorem Token.IsLine.inside {e : Extent} {t : Token} (h : t.IsLine e) : t.Inside e := by
  obtain ⟨f, l, hf, hl, rfl⟩ := h
  exact (inside_of_mem_classifySource hf hl _ List.mem_cons_self).1

theorem pairwise_linesFrom (number start offset : Nat) (line text : List Char) :
    (linesFrom number start offset line text).Pairwise (fun l l' => l.number < l'.number) ∧
      ∀ l ∈ linesFrom number start offset line text, number ≤ l.number := by
  induction text generalizing number start offset line with
  | nil => exact ⟨List.pairwise_singleton _ _, fun l hl => List.mem_singleton.mp hl ▸ Nat.le_refl _⟩
  | cons c text ih =>
    unfold linesFrom
    split
    · obtain ⟨hrest, hnumber⟩ := ih (number + 1) (offset + 1) (offset + 1) []
      refine ⟨List.pairwise_cons.mpr ⟨hnumber, hrest⟩, List.forall_mem_cons.mpr ⟨Nat.le_refl _, fun l hl => ?_⟩⟩
      exact Nat.le_of_succ_le (hnumber l hl)
    · exact ih number start (offset + c.utf8Size) (c :: line)

theorem pairwise_classifyLines {ls : List SourceLine} (h : ls.Pairwise fun l l' => l.number < l'.number)
    (pending : PendingComment) :
    (classifyLines set source pending ls).Pairwise fun l l' => l.origin.Above l'.origin := by
  induction ls generalizing pending with
  | nil => exact .nil
  | cons l ls ih =>
    obtain ⟨hfirst, hrest⟩ := List.pairwise_cons.mp h
    unfold classifyLines
    simp only
    split
    · exact ih hrest _
    · refine List.pairwise_cons.mpr ⟨fun c hc => ?_, ih hrest _⟩
      obtain ⟨l', hl', hparts⟩ := partOf_of_mem_classifyLines hc
      have horigin := hparts c.origin List.mem_cons_self
      exact ⟨horigin.source.symm, horigin.line ▸ hfirst l' hl'⟩

theorem pairwise_classifySource (set : InstructionSet) (source : SourceId) (file : SourceFile) :
    (classifySource set source file).Pairwise fun l l' => l.origin.Above l'.origin :=
  pairwise_classifyLines (pairwise_linesFrom 1 0 0 [] file.text.toList).1 _

theorem Line.Kind.IsRead.arguments {part : Line.CommandPart} (h : (Line.Kind.command part).IsRead) :
    ∃ rest, part.arguments = part.directive.splitArguments rest := by
  cases h with
  | command d keyword rest => exact ⟨rest, rfl⟩

theorem offset_le_of_mem_classifySource (h : l ∈ classifySource set source file) {part : Line.CommandPart}
    (hkind : l.kind = .command part) (hdirective : part.directive = .macroBlock) {name : Token}
    {parameters : List Token} (harguments : part.arguments = name :: parameters) : ∀ p ∈ parameters, name.offset ≤ p.offset := by
  have hread := isRead_of_mem_classifySource h
  rw [hkind] at hread
  obtain ⟨rest, hrest⟩ := hread.arguments
  rw [hdirective, harguments] at hrest
  exact fun p hp => Directive.offset_le_of_parameter hrest.symm hp

end

theorem SourceStore.add_of_free {store : SourceStore} (h : store.free = []) (name text : String) :
    store.add name text = (store.size, ⟨store.files.push ⟨name, text⟩, []⟩) := by
  unfold add size
  rw [h]

theorem SourceStore.get_push {store : SourceStore} {id : SourceId} {f g : SourceFile} (h : store.get? id = some f) :
    (⟨store.files.push g, []⟩ : SourceStore).get? id = some f := by
  obtain ⟨hlt, hget⟩ := Array.getElem?_eq_some_iff.mp h
  unfold get?
  rw [Array.getElem?_push_lt hlt, hget]

end CrossAssembler
