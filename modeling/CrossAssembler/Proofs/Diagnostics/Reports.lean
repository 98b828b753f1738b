import CrossAssembler.Proofs.Scopes.Compilation

/-!
# Diagnostics point into the sources

Everything is in its place from the start to the end of the work, and so is everything that is reported.

Principal result: `reported_inside` — every diagnostic points into the text of a source, but for the labels that rows
of labelled data groups make.
-/

namespace CrossAssembler

namespace Assembly

theorem located_begin (settings : Settings) (files : Files) : (begin settings files).Located where
  freeLines := rfl
  freeSources := rfl
  lines id := by
    rw [line_of_size_le (Nat.zero_le _)]
    exact .vacant _
  whole _ hid := absurd hid (Nat.not_lt_zero _)
  symbols := by
    refine ⟨rfl, rfl, fun _ hid => absurd hid (Nat.not_lt_zero _), fun scope name id hname => ?_, nofun⟩
    have hnone : SymbolTable.empty.lookupIn? scope name = none := by
      cases scope <;> rfl
    cases hnone.symm.trans hname
  recorders := nofun
  units := nofun
  unsettled := nofun
  diagnostics := nofun

theorem kept_addFiles (settings : Settings) (files : Files) (inputs : List (Path × String)) :
    (inputs.foldl (fun s f => s.addFile f.1 f.2) (begin settings files)).Kept ⟨True, False, False⟩ :=
  List.foldlRecOn inputs _ (located_begin settings files).kept fun _ h f _ => h.addFile f.1 f.2

end Assembly

theorem Span.OfRow.begins {e : Extent} {sp : Span} (h : sp.OfRow e) :
    ∃ f, e.sources.get? sp.source = some f ∧ sp.start ≤ sp.stop ∧ sp.start ≤ f.text.utf8ByteSize := by
  obtain ⟨owner, row, name, -, hrow, -, hname, rfl⟩ := h
  obtain ⟨f, hf, hstart, hstop⟩ := hrow.inside.part ((Assembly.Kept.partOf_splitRow row).1 name hname)
  exact ⟨f, hf, Nat.le_add_right _ _, hstart.trans hstop⟩

/-- Whatever files are analysed or compiled, every place that a diagnostic points to begins and ends in the text of
its source. Only the label that a row of a labelled data group makes may end after it. -/
theorem reported_inside (settings : Settings) (files : Files) (inputs : List (Path × String)) :
    ∀ s ∈ [analyzeOnly settings files inputs, compileAll settings files inputs], ∀ d ∈ s.diagnostics, ∀ sp ∈ d.spans,
      ∃ f, s.sources.get? sp.source = some f ∧ sp.start ≤ sp.stop ∧ sp.start ≤ f.text.utf8ByteSize ∧
        (sp.stop ≤ f.text.utf8ByteSize ∨ sp.OfRow s.extent) := by
  intro s hs d hd sp hsp
  have hlocated : s.Located := by
    have hloaded := Assembly.kept_addFiles settings files inputs
    rcases List.mem_pair.mp hs with rfl | rfl
    · exact hloaded.analyzeFiles.located trivial
    · exact (hloaded.compile nofun).located trivial
  rcases hlocated.diagnostics d hd sp hsp with ⟨f, hf, hstart, hstop⟩ | hrow
  · exact ⟨f, hf, hstart, hstart.trans hstop, .inl hstop⟩
  · obtain ⟨f, hf, hstart, hbegin⟩ := hrow.begins
    exact ⟨f, hf, hstart, hbegin, .inr hrow⟩

/-- A label that is defined twice is reported at both places. -/
theorem reported_inside_redefinition :
    ∃ d ∈ (compileAll {} (fun _ => .missing) [("a.asm", "x: .DB 1\nx: .DB 2")]).diagnostics,
      d.labels.length = 1 ∧ ∀ sp ∈ d.spans, ∃ f,
        (compileAll {} (fun _ => .missing) [("a.asm", "x: .DB 1\nx: .DB 2")]).sources.get? sp.source = some f ∧
          sp.start ≤ sp.stop ∧ sp.start ≤ f.text.utf8ByteSize ∧ (sp.stop ≤ f.text.utf8ByteSize ∨
            sp.OfRow (compileAll {} (fun _ => .missing) [("a.asm", "x: .DB 1\nx: .DB 2")]).extent) := by
  have hreported : ∃ d ∈ (compileAll {} (fun _ => .missing) [("a.asm", "x: .DB 1\nx: .DB 2")]).diagnostics,
      d.labels.length = 1 := by decide +kernel
  obtain ⟨d, hd, hlabels⟩ := hreported
  exact ⟨d, hd, hlabels, reported_inside {} _ _ _ (List.mem_cons_of_mem _ List.mem_cons_self) d hd⟩

/-- The second row of this data group is reported from byte 28 to byte 46 of a text of 38 bytes. -/
theorem row_reported_past_end :
    let s := compileAll {} (fun _ => .missing) [("a.asm", "aaaaaaaaaaaaaaaa: .DBG\nx: 1\nx: 2\n.ENDD")]
    s.diagnostics.map (fun d => d.primary) = #[⟨0, 28, 46⟩] ∧
      (s.sources.get? 0).map (fun f => f.text.utf8ByteSize) = some 38 := by
  decide +kernel

end CrossAssembler
