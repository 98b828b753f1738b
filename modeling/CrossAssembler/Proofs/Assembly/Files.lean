import CrossAssembler.Proofs.Assembly.Work

/-!
# Files are analysed

All files are declared before any is settled, and all are settled before any is parsed, so a data group
waits for files after its own.

* `halfway_addFile`, `halfway_declareUnit` — one more file.

Principal result: `prepared_analyzeFiles` — the analysis of all files makes them ready for passes.
-/

namespace CrossAssembler.Assembly

variable {s s' : Assembly}
variable {lists waiting : List (List Item)} {items : List Item}

/-- Whether some files have been declared: the groups in them will be read when they are parsed. The
lines of the others are still to be declared, each once. -/
structure Halfway (declared waiting : List (List Item)) (s : Assembly) : Prop where
  sound : s.Sound
  journal : s.journal = []
  units : s.units.map (fun u => u.items) = declared ++ waiting
  made : Made s (declared ++ waiting)
  nodup : (waiting.flatten.map Item.id).Nodup
  blank : ∀ id ∈ waiting.flatten.map Item.id, (s.line id).table? = none
  indexed : s.Failed ∨ s.Indexed
  tracked : s.Excused ∨ ∀ id, (s.line id).Read ∨
    Reach s (fun j => j < s.lines.size ∧ j ∉ waiting.flatten.map Item.id) .full declared.flatten id

theorem Made.lt (h : Made s lists) {id : LineId} (hid : id ∈ lists.flatten.map Item.id) : id < s.lines.size := by
  obtain ⟨item, hitem, rfl⟩ := List.mem_map.mp hid
  obtain ⟨items, hitems, hmem⟩ := List.mem_flatten.mp hitem
  exact (h items hitems item hmem).id

theorem room_of_journal (h : s.journal = []) (scope : ScopeId) : s.Room scope := by
  intro _ e he
  rw [h] at he
  cases he

/-! ## Taking files in -/

theorem line_begin (settings : Settings) (files : Files) (id : LineId) :
    (begin settings files).line id = Line.vacant :=
  line_of_size_le (Nat.zero_le id)

theorem sound_begin (settings : Settings) (files : Files) : (begin settings files).Sound where
  free := rfl
  freeScopes := rfl
  freeLabels := rfl
  rooted := Nat.zero_lt_one
  outwards scope parent h := by
    have hvacant : ((begin settings files).symbols.scope scope).parent = none := by
      cases scope <;> rfl
    rw [hvacant] at h
    cases h
  placed id hid := absurd hid (Nat.not_lt_zero id)
  owned id := by
    rw [line_begin]
    exact ⟨nofun, trivial⟩
  rowLabels := nofun
  distinct := .nil
  assigned label h := by
    cases h
  complete id := by
    rw [line_begin]
    exact .inl trivial
  consistent id part h := by
    rw [line_begin] at h
    cases h
  rows id row h := by
    rw [line_begin] at h
    cases h
  below id items h := by
    rw [line_begin] at h
    cases h
  forest := by
    have hempty : ∀ owner, (begin settings files).held owner = [] := by
      rintro (_ | id)
      · rfl
      · rw [held_some, line_begin]
        rfl
    refine ⟨fun id k hk => ?_, fun {owner _ k} hk _ => ?_, fun owner => ?_, nofun⟩
    · rw [hempty] at hk
      cases hk
    · rw [hempty] at hk
      cases hk
    · rw [hempty]
      exact .nil
  skipped id hid := absurd hid (Nat.not_lt_zero id)
  evaluated := nofun
  emitted := nofun

theorem halfway_begin (settings : Settings) (files : Files) : Halfway [] [] (begin settings files) := by
  refine ⟨sound_begin settings files, rfl, rfl, nofun, .nil, nofun, .inr ⟨fun id table h => ?_, nofun, nofun⟩,
    .inr fun id => .inl fun part h => ?_⟩
  · rw [line_begin] at h
    cases h
  · rw [line_begin] at h
    cases h

theorem halfway_addFile (h : Halfway [] waiting s) (path : Path)
    (text : String) : ∃ items, Halfway [] (waiting ++ [items]) (s.addFile path text) := by
  have hadded : Added (.undeclared s.lines.size) s _ _ := added_loadSource h.sound path text
  unfold addFile
  generalize s.loadSource path text = loaded at hadded ⊢
  obtain ⟨⟨source, scope, ids⟩, t⟩ := loaded
  have hs := hadded.changes.sound h.sound
  have hle := hadded.changes.size_le
  have hids : (ids.map Item.line).map Item.id = ids := by
    rw [List.map_map]
    exact List.map_id ids
  have hunits : t.units.map (fun u => u.items) = waiting :=
    (Steps.of_changes hadded.changes).units.trans h.units
  have hnodup : ((waiting ++ [ids.map Item.line]).flatten.map Item.id).Nodup := by
    rw [List.flatten_append, List.map_append, List.flatten_singleton, hids]
    refine List.nodup_append.mpr ⟨h.nodup, hadded.nodup, fun id hold id' hnew heq => ?_⟩
    exact Nat.not_le_of_lt (Made.lt h.made hold) (heq ▸ (hadded.mem hnew).1)
  -- a line that was just read stands nowhere
  have hloose : ∀ k ∈ ids, t.Loose k := by
    intro k hk owner hheld
    have hold := (hadded.changes.attaches h.sound hheld).resolve_right fun hk => hk.1
    exact Nat.not_le_of_lt (h.sound.held_lt hold) (hadded.mem hk).1
  have hheld : ({ t with units := t.units ++ [{ path, source, scope, items := ids.map Item.line }] } : Assembly).held
      none = t.held none ++ ids := by
    rw [held_none, held_none]
    simp [lineIds, Item.allLines_append, Item.allLines_map_line]
  refine ⟨ids.map Item.line, hs.regrow rfl rfl rfl rfl rfl rfl ?_ ?_, hadded.changes.journal.trans h.journal, ?_, ?_,
    hnodup, fun id hid => ?_,
    Indexed.around (hadded.changes.indexed h.sound h.indexed) hs rfl rfl rfl rfl rfl, ?_⟩
  · rw [hheld, List.nodup_append]
    refine ⟨hs.forest.distinct none, hadded.nodup, fun k hold id hnew heq => ?_⟩
    exact hloose id hnew none (heq ▸ hold)
  · intro k hk
    rw [hheld] at hk
    exact (List.mem_append.mp hk).imp_right fun hnew => ⟨(hadded.mem hnew).2, hloose k hnew⟩
  · simp [hunits]
  · intro items hitems item hitem
    rw [List.nil_append] at hitems
    rcases List.mem_append.mp hitems with hold | hnew
    · exact h.made.mono hle items hold item hitem
    · rw [List.mem_singleton.mp hnew] at hitem
      obtain ⟨id, hid, rfl⟩ := List.mem_map.mp hitem
      exact .line (hadded.mem hid).2
  · rw [List.flatten_append, List.map_append, List.flatten_singleton, hids] at hid
    refine hadded.changes.table_eq_none h.sound not_false ?_
    rcases List.mem_append.mp hid with hold | hnew
    · exact h.blank id hold
    · rw [line_of_size_le (hadded.mem hnew).1]
      rfl
  · by_cases hfailed : t.Failed
    · exact .inl (.inl hfailed)
    · refine h.tracked.imp hadded.changes.excused fun htracked id => .inl ?_
      have hread : (s.line id).Read := (htracked id).resolve_right Reach.not_nil
      exact ((hadded.changes.keeps h.sound fun hd => hd).read hread).resolve_right hfailed

/-! ## Declaring files -/

theorem map_items_modify {units : List SourceUnit} {declared : List (List Item)}
    (h : units.map (fun u => u.items) = declared ++ items :: waiting) (items' : List Item) :
    (units.modify declared.length fun u => { u with items := items' }).map (fun u => u.items) =
      declared ++ [items'] ++ waiting := by
  obtain ⟨before, rest, rfl, rfl, hrest⟩ := List.map_eq_append_iff.mp h
  obtain ⟨u, after, rfl, -, rfl⟩ := List.map_eq_cons_iff.mp hrest
  rw [List.length_map]
  simp [List.modify_eq_take_cons_drop]

theorem halfway_declareUnit {declared : List (List Item)} (h : Halfway declared (items :: waiting) s) :
    ∃ items', Halfway (declared ++ [items']) waiting (s.declareUnit declared.length) := by
  obtain ⟨u, hu, hitems⟩ : ∃ u, s.units[declared.length]? = some u ∧ u.items = items := by
    have hmap : (s.units.map fun u => u.items)[declared.length]? = some items := by
      rw [h.units]
      simp
    rw [List.getElem?_map] at hmap
    exact Option.map_eq_some_iff.mp hmap
  have hids : (items.map Item.id).Nodup ∧ (waiting.flatten.map Item.id).Nodup ∧
      ∀ id ∈ items.map Item.id, id ∉ waiting.flatten.map Item.id := by
    have hnodup := h.nodup
    rw [List.flatten_cons, List.map_append, List.nodup_append] at hnodup
    exact ⟨hnodup.1, hnodup.2.1, fun id hid hw => hnodup.2.2 id hid id hw rfl⟩
  have hitems' : ∀ item ∈ items, item.Proper (· < s.lines.size) :=
    h.made items (List.mem_append_right _ List.mem_cons_self)
  have hwaiting : Made s waiting := fun list hlist =>
    h.made list (List.mem_append_right _ (List.mem_cons_of_mem _ hlist))
  have hnew : ∀ id ∈ items.map Item.id, id < s.lines.size := by
    intro id hid
    obtain ⟨item, hitem, rfl⟩ := List.mem_map.mp hid
    exact (hitems' item hitem).id
  unfold declareUnit
  rw [hu]
  simp only
  rw [hitems]
  have hready : Ready (fun _ => True) s items := .of_room h.sound (room_of_journal h.journal) hitems'
  have harrange : Changes (within (fun _ => True) fun _ => False) s (s.arrange (items.map Item.id)).2 :=
    Runs.arrange (fun id hid => ⟨trivial, fun h => h.2, hnew id hid, h.blank id (by simp [hid])⟩) h.sound (hready.region _)
  have hmade := arrange_proper s hids.1
  generalize (s.arrange (items.map Item.id)).1 = items' at hmade ⊢
  generalize (s.arrange (items.map Item.id)).2 = t at harrange ⊢
  have hbefore : Changes (within (fun _ => True) fun _ => False) s (t.openUnit u.path) :=
    harrange.tail (.nest ..)
  have hle := hbefore.size_le
  have hready' : Ready (fun _ => True) (t.openUnit u.path) items' :=
    .of_room (hbefore.sound h.sound) (room_of_journal (hbefore.journal.trans h.journal)) fun item hitem =>
      (hmade.2 item hitem).mono fun _ hid => Nat.lt_of_lt_of_le (hnew _ hid) hle
  have hdeclare := hready'.declareWithin .full
  have htracks := (tracks_declareWithin .full hready' (hmade.nodup hids.1)).after hbefore h.sound
    (fun _ hd => hd.2) hdeclare.excused
  unfold declare
  generalize declareWithin .full (t.openUnit u.path) items' = v at hdeclare htracks ⊢
  have hle' := Nat.le_trans hle hdeclare.size_le
  have hunits : v.closeUnits.units.map (fun u => u.items) = declared ++ items :: waiting :=
    ((Steps.of_changes hdeclare).units.trans (Steps.of_changes hbefore).units).trans h.units
  have hunits' := map_items_modify hunits items'
  -- lines only go from the list of the file into blocks
  have hfewer : (lineIds (declared ++ [items'] ++ waiting)).Sublist (v.closeUnits.held none) := by
    rw [held_none, hunits]
    simp only [lineIds, List.flatten_append, List.flatten_cons, List.flatten_nil, Item.allLines_append,
      List.append_nil, List.append_assoc]
    exact ((hmade.1.trans (Item.ids_sublist items)).append (List.Sublist.refl _)).append_left _
  have hsound := hdeclare.sound hready'.sound
  refine ⟨items', hsound.regrow rfl rfl rfl rfl rfl rfl ?_ fun k hk => .inl ?_,
    (hdeclare.journal.trans hbefore.journal).trans h.journal, hunits', ?_, hids.2.1, fun id hid => ?_,
    Indexed.around (hdeclare.indexed hready'.sound (hbefore.indexed h.sound h.indexed)) hsound rfl rfl rfl rfl rfl, ?_⟩
  · rw [held_none, hunits']
    exact hfewer.nodup (hsound.forest.distinct none)
  · rw [held_none, hunits'] at hk
    exact hfewer.subset hk
  · intro list hlist item hitem
    rw [List.append_assoc, List.mem_append, List.mem_append, List.mem_singleton] at hlist
    rcases hlist with hold | rfl | hold
    · exact h.made.mono hle' list (List.mem_append_left _ hold) item hitem
    · exact (hready'.proper item hitem).mono fun _ hid => Nat.lt_of_lt_of_le hid.2 hdeclare.size_le
    · exact hwaiting.mono hle' list hold item hitem
  · refine hdeclare.table_eq_none hready'.sound (fun hd => ?_)
      (hbefore.table_eq_none h.sound (fun hd => hd.2) (h.blank id ?_))
    rcases hd.2 with hmem | hge
    · exact hids.2.2 id (((Item.ids_sublist items').trans hmade.1).subset hmem) hid
    · exact Nat.not_le_of_lt (Made.lt hwaiting hid) (Nat.le_trans hle hge)
    · rw [List.flatten_cons, List.map_append]
      exact List.mem_append_right _ hid
  · rw [List.flatten_append, List.flatten_singleton]
    -- a line that has been declared is not declared again
    have hkept : ∀ j, j < s.lines.size ∧ j ∉ (items :: waiting).flatten.map Item.id →
        (j < v.lines.size ∧ j ∉ waiting.flatten.map Item.id) ∧
          ∀ inner ∈ (s.line j).inner, inner ∈ (v.line j).inner := by
      rintro j ⟨hlt, hnot⟩
      rw [List.flatten_cons, List.map_append, List.mem_append, not_or] at hnot
      refine ⟨⟨Nat.lt_of_lt_of_le hlt hle', hnot.2⟩, fun inner hinner => ?_⟩
      refine (hdeclare.keeps hready'.sound fun hd => ?_).inner inner
        ((hbefore.keeps h.sound fun hd => hd.2).inner inner hinner)
      rcases hd.2 with hmem | hge
      · exact hnot.1 (((Item.ids_sublist items').trans hmade.1).subset hmem)
      · exact Nat.not_le_of_lt hlt (Nat.le_trans hle hge)
    have hnow : ∀ j, Declared (t.openUnit u.path) v items' j →
        j < v.lines.size ∧ j ∉ waiting.flatten.map Item.id := by
      rintro j ⟨hj, hlt⟩
      refine ⟨hlt, fun hwaits => ?_⟩
      rcases hj with hmem | hge
      · exact hids.2.2 j (((Item.ids_sublist items').trans hmade.1).subset hmem) hwaits
      · exact Nat.not_le_of_lt (Made.lt hwaiting hwaits) (Nat.le_trans hle hge)
    rcases h.tracked with he | htracked
    · exact .inl (hdeclare.excused (hbefore.excused he))
    by_cases he : v.Excused
    · exact .inl he
    refine .inr fun id => ?_
    rcases htracked id with hread | hreach
    · rcases htracks id hread with hread' | hreach | he'
      · exact .inl hread'
      · refine .inr (Reach.subset ?_ (List.subset_append_right _ _))
        exact hreach.kept fun j hj => ⟨hnow j hj, fun _ hinner => hinner⟩
      · exact absurd he' he
    · refine .inr (Reach.subset ?_ (List.subset_append_left _ _))
      exact hreach.kept hkept

theorem halfway_declareUnits : ∀ (waiting : List (List Item)) {declared : List (List Item)} {s : Assembly},
    Halfway declared waiting s →
    ∃ lists, Halfway lists [] ((List.range' declared.length waiting.length).foldl declareUnit s) ∧
      lists.length = declared.length + waiting.length
  | [], declared, _, h => ⟨declared, h, rfl⟩
  | _ :: waiting, declared, s, h => by
    obtain ⟨items, h'⟩ := halfway_declareUnit h
    have hrest := halfway_declareUnits waiting h'
    rw [List.length_append, Nat.add_right_comm] at hrest
    exact hrest

/-! ## Settling and parsing files -/

theorem resolveWithin_append (n : Budget) (s : Assembly) (xs ys : List Item) :
    resolveWithin n s (xs ++ ys) = resolveWithin n (resolveWithin n s xs) ys := by
  cases n with
  | spent => rfl
  | left calls files => exact List.foldl_append

theorem parseWithin_append (n : Budget) (s : Assembly) (xs ys : List Item) :
    parseWithin n s (xs ++ ys) = parseWithin n (parseWithin n s xs) ys := by
  cases n with
  | spent => rfl
  | left calls files => exact List.foldl_append

/-- Whether all files have been declared, with the given items. -/
structure Arranged (lists : List (List Item)) (s : Assembly) : Prop where
  ready : Ready (fun _ => True) s lists.flatten
  units : s.units.map (fun u => u.items) = lists

theorem Arranged.later {P : LineId → Prop} (h : Arranged lists s)
    (hrun : Changes (within (fun _ => True) P) s s') : Arranged lists s' :=
  ⟨h.ready.later hrun, (Steps.of_changes hrun).units.trans h.units⟩

theorem Arranged.file (h : Arranged lists s) (hitems : items ∈ lists) : Ready (fun _ => True) s items :=
  h.ready.subset fun _ hitem => List.mem_flatten.mpr ⟨items, hitems, hitem⟩

theorem Halfway.arranged (h : Halfway lists [] s) : Arranged lists s := by
  have hunits := h.units
  have hmade := h.made
  rw [List.append_nil] at hunits hmade
  refine ⟨.of_room h.sound (room_of_journal h.journal) fun item hitem => ?_, hunits⟩
  obtain ⟨items, hitems, hmem⟩ := List.mem_flatten.mp hitem
  exact hmade items hitems item hmem

section

variable {f : Assembly → List Item → Assembly} {lists : List (List Item)}

/-- Work on each file is work on the items it has been arranged with. -/
theorem foldl_unitItems (hf : ∀ s items, Arranged lists s → items ∈ lists → Arranged lists (f s items)) :
    ∀ (rest : List (List Item)) {before : List (List Item)} {s : Assembly}, lists = before ++ rest →
      Arranged lists s →
      (List.range' before.length rest.length).foldl (fun s index => f s (s.unitItems index)) s =
        rest.foldl f s ∧ Arranged lists (rest.foldl f s)
  | [], _, _, _, h => ⟨rfl, h⟩
  | items :: rest, before, s, hsplit, h => by
    have hitems : s.unitItems before.length = items := by
      unfold unitItems
      rw [← List.getElem?_map, h.units, hsplit]
      simp
    have hsplit' : lists = (before ++ [items]) ++ rest := by
      rw [hsplit, List.append_assoc]
      rfl
    have hmem : items ∈ lists := hsplit ▸ List.mem_append_right _ List.mem_cons_self
    have hnext := foldl_unitItems hf rest hsplit' (hf s items h hmem)
    rw [List.length_append] at hnext
    rw [List.length_cons, List.range'_succ, List.foldl_cons, hitems]
    exact hnext

theorem foldl_flatten (hnil : ∀ s, f s [] = s) (happend : ∀ s xs ys, f s (xs ++ ys) = f (f s xs) ys) :
    ∀ (lists : List (List Item)) (s : Assembly), lists.foldl f s = f s lists.flatten
  | [], s => (hnil s).symm
  | items :: lists, s => by
    rw [List.foldl_cons, foldl_flatten hnil happend lists, List.flatten_cons, happend]

theorem foldl_units (hnil : ∀ s, f s [] = s) (happend : ∀ s xs ys, f s (xs ++ ys) = f (f s xs) ys)
    (hf : ∀ s items, Arranged lists s → items ∈ lists → Arranged lists (f s items)) (h : Arranged lists s) :
    (List.range' 0 lists.length).foldl (fun s index => f s (s.unitItems index)) s = f s lists.flatten ∧
      Arranged lists (f s lists.flatten) := by
  have hfold := foldl_unitItems hf lists (List.nil_append lists).symm h
  rw [foldl_flatten hnil happend] at hfold
  exact hfold

end

/-- What an assembly must be for passes to be made. -/
structure Prepared (s : Assembly) : Prop where
  sound : s.Sound
  readied : s.Readied
  made : Made s (s.units.map fun u => u.items)
  indexed : s.Failed ∨ s.Indexed

theorem prepared_analyzeFiles (h : Halfway [] waiting s) (hanalyzed : s.analyzed = 0) : Prepared s.analyzeFiles := by
  have hcount : s.units.length = waiting.length := by
    have hlength := congrArg List.length h.units
    rw [List.length_map] at hlength
    exact hlength
  obtain ⟨lists, hdeclared, hlength⟩ := halfway_declareUnits waiting h
  unfold analyzeFiles analyzeUnits
  simp only
  rw [hanalyzed, Nat.sub_zero, hcount]
  rw [List.length_nil] at hdeclared hlength
  generalize (List.range' 0 waiting.length).foldl declareUnit s = t at hdeclared ⊢
  rw [Nat.zero_add] at hlength
  rw [← hlength]
  obtain ⟨hresolve, hresolved⟩ := foldl_units (f := resolve) (fun _ => rfl) (resolveWithin_append .full)
    (fun _ _ h hitems => h.later ((h.file hitems).resolveWithin .full)) hdeclared.arranged
  obtain ⟨hparse, hparsed⟩ := foldl_units (f := parse) (fun _ => rfl) (parseWithin_append .full)
    (fun _ _ h hitems => h.later ((h.file hitems).parseWithin .full)) hresolved
  have hready := hdeclared.arranged.ready
  have hrun : Changes (within (fun _ => True) fun j => t.lines.size ≤ j) t (t.resolve lists.flatten) :=
    hready.resolveWithin .full
  rw [hresolve, hparse]
  have hread : ((t.resolve lists.flatten).parse lists.flatten).Readied := by
    refine readied_parse hresolved.ready fun id => ?_
    rcases hdeclared.tracked with he | htracked
    · exact .inr (.inr (hrun.excused he))
    · rcases htracked id with hread | hreach
      · exact tracks_resolveWithin .full hready id hread
      · refine .inr (.inl (hreach.kept fun j hj => ?_))
        exact ⟨Nat.lt_of_lt_of_le hj.1 hrun.size_le,
          (hrun.keeps hready.sound fun hd => Nat.not_le_of_lt hj.1 hd.2).inner⟩
  refine ⟨hparsed.ready.sound.around rfl rfl rfl rfl rfl rfl rfl, hread, fun items hitems item hitem => ?_,
    Indexed.around ((hresolved.ready.parseWithin .full).indexed hresolved.ready.sound
      (hrun.indexed hready.sound hdeclared.indexed)) hparsed.ready.sound rfl rfl rfl rfl rfl⟩
  rw [hparsed.units] at hitems
  exact ((hparsed.file hitems).proper item hitem).mono fun _ hid => hid.2

end CrossAssembler.Assembly
