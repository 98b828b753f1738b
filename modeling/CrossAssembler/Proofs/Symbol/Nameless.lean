import CrossAssembler.Proofs.Symbol.Clearing

/-!
# Nameless labels by their places

A reference such as `++` or `-` counts nameless labels from its own place on. The list of a scope is kept in
order by every operation, so counting in the list is counting places.

Principal result: `findNameless_counts` — a search finds the label with the right number of others in between,
and nothing exactly when there are too few.
-/

namespace CrossAssembler

/-! ## Places in order -/

theorem placeBefore_iff {a b : Nat × Nat} : placeBefore a b = true ↔ toLex a < toLex b := by
  unfold placeBefore
  rw [Prod.Lex.toLex_lt_toLex]
  simp

/-- Whether a nameless label comes strictly before another. -/
def NamelessEntry.Before (a b : NamelessEntry) : Prop := toLex a.place < toLex b.place

instance : DecidableRel NamelessEntry.Before := fun a b => inferInstanceAs (Decidable (toLex a.place < toLex b.place))

theorem NamelessEntry.Before.asymm {a b : NamelessEntry} (h : a.Before b) : ¬ b.Before a := lt_asymm h

theorem getElem?_eq_some_iff_rank {α : Type} {r : α → α → Prop} [DecidableRel r]
    (hasymm : ∀ {a b}, r a b → ¬ r b a) {l : List α} (hl : l.Pairwise r) {n : Nat} {a : α} :
    l[n]? = some a ↔ a ∈ l ∧ (l.filter fun b => r b a).length = n := by
  induction l generalizing n with
  | nil => simp
  | cons b l ih =>
    obtain ⟨hfirst, hrest⟩ := List.pairwise_cons.mp hl
    have hirrefl : ¬ r b b := fun h => hasymm h h
    -- Nothing in the list comes before its first element.
    have hrank : ((b :: l).filter fun c => r c b).length = 0 := by
      rw [List.length_eq_zero_iff, List.filter_eq_nil_iff]
      intro c hc
      rcases List.mem_cons.mp hc with rfl | hc
      · simpa using hirrefl
      · simpa using hasymm (hfirst c hc)
    by_cases ha : a = b
    · subst ha
      rw [hrank]
      cases n with
      | zero => simp
      | succ n =>
        rw [List.getElem?_cons_succ, ih hrest]
        exact ⟨fun h => absurd (hfirst a h.1) hirrefl, fun h => absurd h.2.symm (Nat.succ_ne_zero n)⟩
    · have hmem : a ∈ b :: l ↔ a ∈ l := by simp [ha]
      rw [hmem]
      cases n with
      | zero =>
        rw [List.getElem?_cons_zero, Option.some.injEq]
        refine ⟨fun h => absurd h.symm ha, fun ⟨hin, hnone⟩ => ?_⟩
        rw [List.length_eq_zero_iff, List.filter_eq_nil_iff] at hnone
        exact absurd (decide_eq_true (hfirst a hin)) (hnone b List.mem_cons_self)
      | succ n =>
        rw [List.getElem?_cons_succ, ih hrest]
        refine and_congr_right fun hin => ?_
        rw [List.filter_cons_of_pos (by simpa using hfirst a hin), List.length_cons, Nat.add_right_cancel_iff]

namespace SymbolTable

variable {t t' : SymbolTable} {h : Handles} {scope : ScopeId}

/-! ## Cutting a list at a place -/

section Cutting

variable {es : List NamelessEntry} (place : Nat × Nat)

theorem dropWhile_eq_after (hes : es.Pairwise NotAfter) :
    (es.dropWhile fun e => !placeBefore place e.place) = es.filter fun e => toLex place < toLex e.place := by
  induction es with
  | nil => rfl
  | cons e es ih =>
    obtain ⟨hfirst, hrest⟩ := List.pairwise_cons.mp hes
    by_cases he : toLex place < toLex e.place
    · have hlater : ∀ o ∈ es, decide (toLex place < toLex o.place) = true := by
        intro o ho
        have hnot : ¬ toLex o.place < toLex e.place := by
          rw [← placeBefore_iff, Bool.not_eq_true]
          exact hfirst o ho
        exact decide_eq_true (he.trans_le (not_lt.mp hnot))
      rw [List.dropWhile_cons, placeBefore_iff.mpr he, List.filter_cons_of_pos (by simpa using he),
        List.filter_eq_self.mpr hlater]
      rfl
    · have hskip : placeBefore place e.place = false := by
        rw [← Bool.not_eq_true, placeBefore_iff]
        exact he
      rw [List.dropWhile_cons, hskip, List.filter_cons_of_neg (by simpa using he), ← ih hrest]
      rfl

theorem takeWhile_eq_before (hes : es.Pairwise NotAfter) :
    (es.takeWhile fun e => placeBefore e.place place) = es.filter fun e => toLex e.place < toLex place := by
  induction es with
  | nil => rfl
  | cons e es ih =>
    obtain ⟨hfirst, hrest⟩ := List.pairwise_cons.mp hes
    by_cases he : toLex e.place < toLex place
    · rw [List.takeWhile_cons, placeBefore_iff.mpr he, List.filter_cons_of_pos (by simpa using he), ← ih hrest]
      rfl
    have hstop : placeBefore e.place place = false := by
      rw [← Bool.not_eq_true, placeBefore_iff]
      exact he
    have hlater : ∀ o ∈ e :: es, ¬ decide (toLex o.place < toLex place) = true := by
      intro o ho
      rw [decide_eq_true_iff]
      rcases List.mem_cons.mp ho with rfl | ho
      · exact he
      · have hnot : ¬ toLex o.place < toLex e.place := by
          rw [← placeBefore_iff, Bool.not_eq_true]
          exact hfirst o ho
        exact fun hbefore => hnot (hbefore.trans_le (not_lt.mp he))
    rw [List.takeWhile_cons, hstop, List.filter_eq_nil_iff.mpr hlater]
    rfl

end Cutting

/-! ## Labels at places of their own -/

/-- Whether no two nameless labels shown in a scope have the same place. -/
def Apart (t : SymbolTable) (scope : ScopeId) : Prop :=
  ∀ place id id', ShownAt (t.label id) scope place → ShownAt (t.label id') scope place → id = id'

/-- The nameless labels of a scope at the places that a test accepts. -/
def namelessWhere (t : SymbolTable) (scope : ScopeId) (p : Nat × Nat → Prop) : Set LabelId :=
  { id | ∃ place, ShownAt (t.label id) scope place ∧ p place }

theorem Indexed.strict (hi : t.Indexed) (hapart : t.Apart scope) :
    (t.scope scope).nameless.Pairwise NamelessEntry.Before := by
  have hplaces : ∀ e ∈ (t.scope scope).nameless, ∀ o ∈ (t.scope scope).nameless, e.place = o.place → e.label = o.label := by
    intro e he o ho heq
    exact hapart e.place e.label o.label ((hi.nameless scope e).mp he) (heq ▸ (hi.nameless scope o).mp ho)
  have honce : (t.scope scope).nameless.Pairwise fun e o => e.label ≠ o.label := List.pairwise_map.mp (hi.once scope)
  refine List.Pairwise.imp_of_mem (fun {e o} he ho hboth => ?_) ((hi.sorted scope).and honce)
  have hle : toLex e.place ≤ toLex o.place := by
    rw [← not_lt, ← placeBefore_iff, Bool.not_eq_true]
    exact hboth.1
  refine lt_of_le_of_ne hle fun heq => hboth.2 (hplaces e he o ho ?_)
  exact toLex.injective heq

/-- Different places in the list of a scope keep its labels apart. -/
theorem Indexed.apart (hi : t.Indexed) (hplaces : ((t.scope scope).nameless.map NamelessEntry.place).Nodup) :
    t.Apart scope := by
  intro place id id' hid hid'
  have hin : ⟨place.1, place.2, id⟩ ∈ (t.scope scope).nameless := (hi.nameless scope _).mpr hid
  have hin' : ⟨place.1, place.2, id'⟩ ∈ (t.scope scope).nameless := (hi.nameless scope _).mpr hid'
  have heq := List.inj_on_of_nodup_map hplaces hin hin' rfl
  exact congrArg NamelessEntry.label heq

/-- The labels at some places are as many as the list of the scope has there. -/
theorem Indexed.ncard_namelessWhere (hi : t.Indexed) (p : Nat × Nat → Prop) [DecidablePred p] :
    (t.namelessWhere scope p).ncard = ((t.scope scope).nameless.filter fun e => p e.place).length := by
  have hset : t.namelessWhere scope p =
      (((t.scope scope).nameless.filter fun e => p e.place).map NamelessEntry.label).toFinset := by
    ext id
    simp only [namelessWhere, Set.mem_ofPred_eq, List.coe_toFinset, List.mem_map, List.mem_filter, decide_eq_true_eq]
    constructor
    · rintro ⟨place, hshown, hp⟩
      exact ⟨⟨place.1, place.2, id⟩, ⟨(hi.nameless scope _).mpr hshown, hp⟩, rfl⟩
    · rintro ⟨e, ⟨he, hp⟩, rfl⟩
      exact ⟨e.place, (hi.nameless scope e).mp he, hp⟩
  have hnodup : (((t.scope scope).nameless.filter fun e => p e.place).map NamelessEntry.label).Nodup :=
    (hi.once scope).sublist (List.filter_sublist.map _)
  rw [hset, Set.ncard_coe_finset, List.toFinset_card_of_nodup hnodup, List.length_map]

/-! ## Counting -/

/-- Whether a label is shown on one side of a place, as the `n + 1`-st from there. -/
def IsNth (t : SymbolTable) (scope : ScopeId) (r : Nat × Nat → Nat × Nat → Prop) (here : Nat × Nat) (n : Nat)
    (id : LabelId) : Prop :=
  ∃ place, ShownAt (t.label id) scope place ∧ r here place ∧
    (t.namelessWhere scope fun p => r here p ∧ r p place).ncard = n

/-- The n-th entry of the labels on one side, when these are listed from the place on. -/
theorem Indexed.isNth_iff (hi : t.Indexed) {r : Nat × Nat → Nat × Nat → Prop} [DecidableRel r]
    (hasymm : ∀ {a b}, r a b → ¬ r b a) {here : Nat × Nat} {es : List NamelessEntry}
    (hperm : es.Perm ((t.scope scope).nameless.filter fun e => r here e.place))
    (hsorted : es.Pairwise fun e o => r e.place o.place) {n : Nat} {id : LabelId} :
    (es[n]?).map NamelessEntry.label = some id ↔ t.IsNth scope r here n id := by
  have hcount : ∀ place, (es.filter fun e => r e.place place).length =
      (t.namelessWhere scope fun p => r here p ∧ r p place).ncard := by
    intro place
    rw [hi.ncard_namelessWhere, (hperm.filter _).length_eq, List.filter_filter]
    congr 2
    funext e
    rw [Bool.and_comm, ← Bool.decide_and]
  have hentry : ∀ e, es[n]? = some e ↔ (e ∈ (t.scope scope).nameless ∧ r here e.place) ∧
      (t.namelessWhere scope fun p => r here p ∧ r p e.place).ncard = n := by
    intro e
    rw [getElem?_eq_some_iff_rank (r := fun e o => r e.place o.place) hasymm hsorted, hcount, hperm.mem_iff,
      List.mem_filter, decide_eq_true_eq]
  rw [Option.map_eq_some_iff]
  constructor
  · rintro ⟨e, he, rfl⟩
    obtain ⟨⟨hin, hside⟩, hnumber⟩ := (hentry e).mp he
    exact ⟨e.place, (hi.nameless scope e).mp hin, hside, hnumber⟩
  · rintro ⟨place, hshown, hside, hnumber⟩
    exact ⟨⟨place.1, place.2, id⟩, (hentry _).mpr ⟨⟨(hi.nameless scope _).mpr hshown, hside⟩, hnumber⟩, rfl⟩

theorem namelessHome_of_kind (hkind : (t.scope scope).kind ≠ .global) : t.namelessHome scope = scope := by
  unfold namelessHome
  rw [if_neg hkind]

/-- **References count places.** In a file, a macro call or an iteration whose nameless labels are at places of
their own, the search for the k-th label after a place finds the label with exactly k - 1 others in between, and
none exactly when there are fewer than k; and so does the search for the k-th label before it. -/
theorem findNameless_counts (hattained : Attained t h) (hkind : (t.scope scope).kind ≠ .global)
    (hapart : t.Apart scope) (line column : Nat) {k : Nat} (hk : 1 ≤ k) :
    (∀ id, t.findNameless? (.forward k) scope line column = some id ↔
      ∃ place, ShownAt (t.label id) scope place ∧ toLex (line, column) < toLex place ∧
        (t.namelessWhere scope fun p => toLex (line, column) < toLex p ∧ toLex p < toLex place).ncard = k - 1) ∧
    (t.findNameless? (.forward k) scope line column = none ↔
      (t.namelessWhere scope fun p => toLex (line, column) < toLex p).ncard < k) ∧
    (∀ id, t.findNameless? (.backward k) scope line column = some id ↔
      ∃ place, ShownAt (t.label id) scope place ∧ toLex place < toLex (line, column) ∧
        (t.namelessWhere scope fun p => toLex p < toLex (line, column) ∧ toLex place < toLex p).ncard = k - 1) ∧
    (t.findNameless? (.backward k) scope line column = none ↔
      (t.namelessWhere scope fun p => toLex p < toLex (line, column)).ncard < k) := by
  obtain ⟨n, rfl⟩ : ∃ n, k = n + 1 := ⟨k - 1, by omega⟩
  have hi := hattained.valid.indexed
  have hstrict := hi.strict hapart
  have hforward : t.findNameless? (.forward (n + 1)) scope line column =
      (((t.scope scope).nameless.filter fun e => toLex (line, column) < toLex e.place)[n]?).map NamelessEntry.label := by
    unfold findNameless?
    rw [namelessHome_of_kind hkind]
    simp only [dropWhile_eq_after (line, column) (hi.sorted scope)]
  have hbackward : t.findNameless? (.backward (n + 1)) scope line column =
      (((t.scope scope).nameless.filter fun e => toLex e.place < toLex (line, column)).reverse[n]?).map
        NamelessEntry.label := by
    unfold findNameless?
    rw [namelessHome_of_kind hkind]
    simp only [takeWhile_eq_before (line, column) (hi.sorted scope)]
  rw [hforward, hbackward, Nat.add_sub_cancel]
  refine ⟨fun id => ?_, ?_, fun id => ?_, ?_⟩
  · exact hi.isNth_iff (r := fun a b => toLex a < toLex b) lt_asymm (.refl _) (hstrict.filter _)
  · rw [Option.map_eq_none_iff, List.getElem?_eq_none_iff, hi.ncard_namelessWhere, Nat.lt_succ_iff]
  · exact hi.isNth_iff (r := fun a b => toLex b < toLex a) lt_asymm (List.reverse_perm _)
      (List.pairwise_reverse.mpr (hstrict.filter _))
  · rw [Option.map_eq_none_iff, List.getElem?_eq_none_iff, List.length_reverse, hi.ncard_namelessWhere,
      Nat.lt_succ_iff]

/-- The table with a label more, when its name is free. -/
def withLabel (t : SymbolTable) (token : Token) (scope : ScopeId) : SymbolTable :=
  match t.createLabel token scope .label true with
  | .ok (_, made) => made
  | .error _ => t

theorem Attained.withLabel (ha : Attained t h) (token : Token) (hscope : scope ∈ h.scopes) :
    ∃ h', Attained (t.withLabel token scope) h' ∧ scope ∈ h'.scopes := by
  unfold SymbolTable.withLabel
  cases hmade : t.createLabel token scope .label true with
  | error e => exact ⟨h, ha, hscope⟩
  | ok made => exact ⟨_, ha.step (.createLabel hscope hmade), hscope⟩

/-- Three nameless labels of a file, the last one made first. -/
def threeMarks : SymbolTable :=
  (((empty.addScope .file globalScope 5).2.withLabel ⟨5, 9, 0, 0, "+"⟩ 1).withLabel ⟨5, 3, 0, 0, "-"⟩ 1).withLabel
    ⟨5, 6, 0, 0, "+"⟩ 1

theorem attained_threeMarks : ∃ h, Attained threeMarks h := by
  have hopened := Attained.empty.step (.addScope .file 5 valid_empty.root)
  obtain ⟨h₁, hfirst, hscope₁⟩ := hopened.withLabel ⟨5, 9, 0, 0, "+"⟩ (Set.mem_insert 1 _)
  obtain ⟨h₂, hsecond, hscope₂⟩ := hfirst.withLabel ⟨5, 3, 0, 0, "-"⟩ hscope₁
  obtain ⟨h₃, hthird, -⟩ := hsecond.withLabel ⟨5, 6, 0, 0, "+"⟩ hscope₂
  exact ⟨h₃, hthird⟩

/-- From the label on line 3, hidden and shown again, the second one after it is that on line 9, with one label in
between; and there is no third. -/
theorem findNameless_threeMarks : ∃ t h, (threeMarks.unbind 1).rebind 1 = .ok t ∧ Attained t h ∧
      t.findNameless? (.forward 2) 1 3 0 = some 0 ∧
      (∃ place, ShownAt (t.label 0) 1 place ∧ toLex (3, 0) < toLex place ∧
        (t.namelessWhere 1 fun p => toLex (3, 0) < toLex p ∧ toLex p < toLex place).ncard = 1) ∧
      (t.namelessWhere 1 fun p => toLex (3, 0) < toLex p).ncard < 3 := by
  obtain ⟨h, hmade⟩ := attained_threeMarks
  have hlive : 1 ∈ h.labels := hmade.valid.live_of_bound (by decide +kernel)
  have hresults : ((threeMarks.unbind 1).rebind 1).toOption.map (fun t =>
      ((t.scope 1).kind, (t.scope 1).nameless.map NamelessEntry.place, t.findNameless? (.forward 2) 1 3 0,
        t.findNameless? (.forward 3) 1 3 0)) = some (.file, [(3, 0), (6, 0), (9, 0)], some 0, none) := by
    decide +kernel
  cases hshown : (threeMarks.unbind 1).rebind 1 with
  | error e =>
    rw [hshown] at hresults
    cases hresults
  | ok t =>
    rw [hshown] at hresults
    simp only [Except.toOption, Option.map_some, Option.some.injEq, Prod.mk.injEq] at hresults
    obtain ⟨hkind, hplaces, hsecond, hthird⟩ := hresults
    have hattained := (hmade.step (.unbind hlive)).step (.rebind hlive hshown)
    have hfile : (t.scope 1).kind ≠ .global := by rw [hkind]; decide
    have hapart : t.Apart 1 := hattained.valid.indexed.apart (by rw [hplaces]; decide)
    have htwo := findNameless_counts hattained hfile hapart 3 0 (k := 2) (by decide)
    have hthree := findNameless_counts hattained hfile hapart 3 0 (k := 3) (by decide)
    exact ⟨t, h, rfl, hattained, hsecond, (htwo.1 0).mp hsecond, hthree.2.1.mp hthird⟩

end SymbolTable

end CrossAssembler
