import CrossAssembler.Line.Arena
import Mathlib

/-!
# Numbers of lines

A line gets a number that no other line has, and keeps what it is until its number is released.

* `push_cases`, `get_push`, `get_releaseOne` — what one request does to the lines.

Principal result: `allocation_safe` — so it is after every sequence of requests, and no request touches a line
that is in use but those it releases.
-/

namespace CrossAssembler

namespace Arena

variable {a : Arena}

/-! ## Requests -/

theorem push_cases (a : Arena) (l : Line) :
    (∃ id free, a.free = id :: free ∧ a.push l = (id, ⟨a.lines.setIfInBounds id l, free⟩)) ∨
      a.free = [] ∧ a.push l = (a.lines.size, ⟨a.lines.push l, []⟩) := by
  unfold push
  cases a.free with
  | cons id free => exact .inl ⟨id, free, rfl, rfl⟩
  | nil => exact .inr ⟨rfl, rfl⟩

theorem get_push (a : Arena) (l : Line) (id : LineId) :
    (a.push l).2.get id = if id = (a.push l).1 ∧ id < (a.push l).2.size then l else a.get id := by
  unfold get size
  rcases push_cases a l with ⟨new, free, -, heq⟩ | ⟨-, heq⟩
  · rw [heq]
    simp only
    rw [Array.getElem?_setIfInBounds, Array.size_setIfInBounds]
    by_cases hid : new = id
    · subst hid
      by_cases hlt : new < a.lines.size
      · rw [if_pos rfl, if_pos hlt, if_pos ⟨rfl, hlt⟩]
        rfl
      · rw [if_pos rfl, if_neg hlt, if_neg fun hall => hlt hall.2, Array.getElem?_eq_none (Nat.le_of_not_lt hlt)]
    · rw [if_neg hid, if_neg fun hall => hid hall.1.symm]
  · rw [heq]
    simp only
    rw [Array.getElem?_push, Array.size_push]
    by_cases hid : id = a.lines.size
    · rw [if_pos hid, if_pos ⟨hid, hid ▸ Nat.lt_succ_self _⟩]
      rfl
    · rw [if_neg hid, if_neg fun hall => hid hall.1]

theorem get_releaseOne (a : Arena) (id j : LineId) :
    (a.releaseOne id).get j = if j = id ∧ id ∉ a.free then Line.vacant else a.get j := by
  unfold releaseOne
  split
  · rename_i hfree
    rw [if_neg fun hall => hall.2 (List.contains_iff_mem.mp hfree)]
  rename_i hfree
  have hnot : id ∉ a.free := fun hmem => hfree (List.contains_iff_mem.mpr hmem)
  unfold get
  rw [Array.getElem?_setIfInBounds]
  by_cases hj : id = j
  · subst hj
    rw [if_pos rfl]
    refine Eq.trans ?_ (if_pos ⟨rfl, hnot⟩).symm
    split <;> rfl
  · rw [if_neg hj, if_neg fun hall => hj hall.1.symm]

theorem mem_eraseReps {x : LineId} {ids : List LineId} : x ∈ ids.eraseReps ↔ x ∈ ids := by
  have hloop : ∀ (rest : List LineId) (first : LineId) (acc : List LineId),
      x ∈ List.eraseRepsBy.loop (fun i j => i == j) first rest acc ↔ x = first ∨ x ∈ rest ∨ x ∈ acc := by
    intro rest
    induction rest with
    | nil =>
      intro first acc
      simp [List.eraseRepsBy.loop, or_comm]
    | cons next rest ih =>
      intro first acc
      unfold List.eraseRepsBy.loop
      split
      · rename_i heq
        rw [ih, beq_iff_eq.mp heq, List.mem_cons]
        tauto
      · rw [ih, List.mem_cons, List.mem_cons]
        tauto
  cases ids with
  | nil => rfl
  | cons first rest =>
    refine (hloop rest first []).trans ?_
    simp

theorem releaseOne_cases (a : Arena) (id : LineId) : id ∈ a.free ∧ a.releaseOne id = a ∨
      id ∉ a.free ∧ a.releaseOne id = ⟨a.lines.setIfInBounds id Line.vacant, id :: a.free⟩ := by
  unfold releaseOne
  by_cases hfree : id ∈ a.free
  · exact .inl ⟨hfree, if_pos (List.contains_iff_mem.mpr hfree)⟩
  · exact .inr ⟨hfree, if_neg fun h => hfree (List.contains_iff_mem.mp h)⟩

/-- What is asked of an arena. -/
inductive Demand where
  | push (l : Line)
  | instantiate (template : List LineId) (scope : ScopeId)
  | release (ids : List LineId)

/-- The numbers that a request frees. -/
def Demand.released : Demand → List LineId
  | push _ | instantiate .. => []
  | release ids => ids

/-- How many numbers a request asks for. -/
def Demand.wanted : Demand → Nat
  | push _ => 1
  | instantiate template _ => template.length
  | release _ => 0

end Arena

open Arena (Demand)

/-- An arena with the numbers that it has handed out, and those of them that have not been released since. -/
structure Ledger where
  arena : Arena
  handed : List LineId
  live : List LineId

namespace Ledger

variable {t : Ledger} {id : LineId}

/-- Nothing has been asked for. -/
def empty : Ledger := ⟨.empty, [], []⟩

/-- Notes the numbers that are handed out. -/
def hand (t : Ledger) (given : List LineId × Arena) : Ledger :=
  ⟨given.2, t.handed ++ given.1, t.live ++ given.1⟩

/-- What a request leaves. -/
def serve (t : Ledger) : Demand → Ledger
  | .push l =>
    let (id, arena) := t.arena.push l
    t.hand ([id], arena)
  | .instantiate template scope => t.hand (t.arena.instantiate template scope)
  | .release ids => ⟨t.arena.release ids, t.handed, t.live.filter (· ∉ ids)⟩

/-- Whether a request releases only numbers that have been handed out. -/
def Allows (t : Ledger) (r : Demand) : Prop := r.released ⊆ t.handed

/-- What can come of requests, one after another. -/
inductive Reached : Ledger → Prop
  | empty : Reached empty
  | serve {t : Ledger} (h : Reached t) (r : Demand) (allowed : t.Allows r) : Reached (t.serve r)

/-- Whether the numbers in use and the free ones are all numbers there are, each once, and nothing stands at a
free one. -/
structure Safe (t : Ledger) : Prop where
  accounts : (t.live ++ t.arena.free).Perm (List.range t.arena.size)
  handed : ∀ id ∈ t.handed, id < t.arena.size
  vacant : ∀ id ∈ t.arena.free, t.arena.get id = Line.vacant

namespace Safe

theorem nodup (h : t.Safe) : (t.live ++ t.arena.free).Nodup := h.accounts.nodup_iff.mpr List.nodup_range

theorem lt_size_iff (h : t.Safe) : id < t.arena.size ↔ id ∈ t.live ∨ id ∈ t.arena.free := by
  rw [← List.mem_append, h.accounts.mem_iff, List.mem_range]

theorem not_free (h : t.Safe) (hid : id ∈ t.live) : id ∉ t.arena.free := fun hfree =>
  List.disjoint_of_nodup_append h.nodup hid hfree

end Safe

/-! ## Lines that are added -/

theorem serve_push (t : Ledger) (l : Line) :
    t.serve (.push l) = t.hand ([(t.arena.push l).1], (t.arena.push l).2) := rfl

theorem serve_instantiate_cons (t : Ledger) (id : LineId) (template : List LineId) (scope : ScopeId) :
    t.serve (.instantiate (id :: template) scope) =
      (t.serve (.push ((t.arena.get id).copyTo scope))).serve (.instantiate template scope) := by
  simp [serve, hand, Arena.instantiate]

theorem serve_instantiate_nil (t : Ledger) (scope : ScopeId) : t.serve (.instantiate [] scope) = t := by
  simp [serve, hand, Arena.instantiate]

/-- A line that is added gets a number that is not in use, and there is one number more only if none is
free. -/
theorem push_spec (h : t.Safe) (l : Line) :
    (t.arena.push l).1 ∉ t.live ∧ (t.arena.push l).1 < (t.arena.push l).2.size ∧
      (t.arena.push l).2.size = t.arena.size + (1 - t.arena.free.length) ∧
      (t.arena.push l).2.free = t.arena.free.tail := by
  rcases t.arena.push_cases l with ⟨new, free, hfree, heq⟩ | ⟨hfree, heq⟩
  · have hmem : new ∈ t.arena.free := hfree ▸ List.mem_cons_self
    refine ⟨?_, ?_, ?_, ?_⟩ <;> rw [heq]
    · exact fun hlive => h.not_free hlive hmem
    · simpa [Arena.size] using h.lt_size_iff.mpr (.inr hmem)
    · simp [Arena.size, hfree]
    · simp [hfree]
  · refine ⟨?_, ?_, ?_, ?_⟩ <;> rw [heq]
    · exact fun hlive => Nat.lt_irrefl _ (h.lt_size_iff.mpr (.inl hlive))
    · simp [Arena.size]
    · simp [Arena.size, hfree]
    · simp [hfree]

theorem get_push_of_ne (l : Line) (hid : id ≠ (t.arena.push l).1) : (t.arena.push l).2.get id = t.arena.get id := by
  rw [Arena.get_push, if_neg fun hall => hid hall.1]

theorem Safe.push (h : t.Safe) (l : Line) : (t.serve (.push l)).Safe := by
  obtain ⟨hnew, hlt, hsize, hfree⟩ := push_spec h l
  have hle : t.arena.size ≤ (t.arena.push l).2.size := hsize ▸ Nat.le_add_right ..
  have haccounts : ((t.live ++ [(t.arena.push l).1]) ++ (t.arena.push l).2.free).Perm
      (List.range (t.arena.push l).2.size) := by
    have haccounts := h.accounts
    rcases t.arena.push_cases l with ⟨new, free, hold, heq⟩ | ⟨hold, heq⟩
    · -- the number moves from the free ones to those in use
      rw [hold] at haccounts
      simpa [heq, Arena.size] using haccounts
    · rw [hold, List.append_nil] at haccounts
      simpa [heq, Arena.size, List.range_succ] using haccounts.append_right [t.arena.lines.size]
  refine ⟨haccounts, fun id hid => ?_, fun id hid => ?_⟩
  · rcases List.mem_append.mp hid with hid | hid
    · exact Nat.lt_of_lt_of_le (h.handed id hid) hle
    · exact List.mem_singleton.mp hid ▸ hlt
  · have hne : id ≠ (t.arena.push l).1 := fun heq =>
      List.disjoint_of_nodup_append (haccounts.nodup_iff.mpr List.nodup_range)
        (List.mem_append_right _ (List.mem_singleton.mpr heq)) hid
    exact (get_push_of_ne l hne).trans (h.vacant id (List.mem_of_mem_tail (hfree ▸ hid)))

/-! ## Numbers that are released -/

/-- Releases one number. -/
def letGo (t : Ledger) (id : LineId) : Ledger := ⟨t.arena.releaseOne id, t.handed, t.live.filter (· ≠ id)⟩

theorem size_letGo (t : Ledger) (id : LineId) : (t.letGo id).arena.size = t.arena.size := by
  rcases t.arena.releaseOne_cases id with ⟨-, heq⟩ | ⟨-, heq⟩ <;> simp [Ledger.letGo, heq, Arena.size]

theorem Safe.letGo (h : t.Safe) (hid : id ∈ t.handed) : (t.letGo id).Safe := by
  have hnodup := h.nodup
  rcases t.arena.releaseOne_cases id with ⟨hfree, heq⟩ | ⟨hfree, heq⟩
  · have hlive : t.live.filter (· ≠ id) = t.live :=
      List.filter_eq_self.mpr fun j hj => decide_eq_true fun heq => h.not_free hj (heq ▸ hfree)
    unfold Ledger.letGo
    rw [heq, hlive]
    exact h
  have hsize := size_letGo t id
  have hlive : id ∈ t.live := (h.lt_size_iff.mp (h.handed id hid)).resolve_right hfree
  refine ⟨?_, fun j hj => hsize ▸ h.handed j hj, fun j hj => ?_⟩
  · -- the number moves from those in use to the free ones
    have herase : t.live.filter (· ≠ id) = t.live.erase id := by
      rw [(List.nodup_append.mp hnodup).1.erase_eq_filter]
      exact List.filter_congr fun j _ => Bool.eq_iff_iff.mpr (by simp)
    rw [hsize]
    refine List.Perm.trans ?_ h.accounts
    simp only [Ledger.letGo, heq, herase]
    refine List.perm_middle.trans ?_
    rw [← List.cons_append]
    exact (List.perm_cons_erase hlive).symm.append_right _
  · have hget := t.arena.get_releaseOne id j
    have hfree' : (t.letGo id).arena.free = id :: t.arena.free := by
      simp [Ledger.letGo, heq]
    rw [hfree'] at hj
    rcases List.mem_cons.mp hj with rfl | hj
    · exact hget.trans (if_pos ⟨rfl, hfree⟩)
    · refine hget.trans ((if_neg ?_).trans (h.vacant j hj))
      exact fun hall => hfree (hall.1 ▸ hj)

theorem letGo_frame (hlive : id ∈ t.live) {j : LineId} (hne : id ≠ j) :
    id ∈ (t.letGo j).live ∧ (t.letGo j).arena.get id = t.arena.get id :=
  ⟨List.mem_filter.mpr ⟨hlive, decide_eq_true hne⟩,
    (t.arena.get_releaseOne j id).trans (if_neg fun hall => hne hall.1)⟩

theorem foldl_letGo (ids : List LineId) (t : Ledger) :
    ids.foldl letGo t = ⟨ids.foldl Arena.releaseOne t.arena, t.handed, t.live.filter (· ∉ ids)⟩ := by
  induction ids generalizing t with
  | nil => simp
  | cons id ids ih =>
    rw [List.foldl_cons, ih, List.foldl_cons]
    simp [Ledger.letGo, List.filter_filter, Bool.and_comm]

/-- Numbers are released one after another, whatever their order is and however often one is named. -/
theorem serve_release (t : Ledger) (ids : List LineId) : ∃ order : List LineId,
    (∀ id, id ∈ order ↔ id ∈ ids) ∧ t.serve (.release ids) = order.foldl letGo t := by
  have hmem : ∀ id, id ∈ (ids.mergeSort fun i j => j ≤ i).eraseReps ↔ id ∈ ids := fun id =>
    Arena.mem_eraseReps.trans List.mem_mergeSort
  refine ⟨_, hmem, ?_⟩
  rw [foldl_letGo]
  simp [serve, Arena.release, hmem]

/-! ## All requests -/

/-- What a request may do to a ledger. -/
structure Serves (t : Ledger) (released : List LineId) (wanted : Nat) (t' : Ledger) : Prop where
  safe : t'.Safe
  frame : ∀ id ∈ t.live, id ∉ released → id ∈ t'.live ∧ t'.arena.get id = t.arena.get id
  size : t'.arena.size = t.arena.size + (wanted - t.arena.free.length)

theorem serves_push (h : t.Safe) (l : Line) : t.Serves [] 1 (t.serve (.push l)) := by
  obtain ⟨hnew, -, hsize, -⟩ := push_spec h l
  exact ⟨h.push l, fun id hid _ =>
    ⟨List.mem_append_left _ hid, get_push_of_ne l fun heq => hnew (heq ▸ hid)⟩, hsize⟩

theorem serves_instantiate (scope : ScopeId) (template : List LineId) (h : t.Safe) :
    t.Serves [] template.length (t.serve (.instantiate template scope)) := by
  induction template generalizing t with
  | nil =>
    rw [serve_instantiate_nil]
    exact ⟨h, fun id hid _ => ⟨hid, rfl⟩, by simp⟩
  | cons id template ih =>
    have hfirst := serves_push h ((t.arena.get id).copyTo scope)
    have hfree := (push_spec h ((t.arena.get id).copyTo scope)).2.2.2
    rw [serve_instantiate_cons]
    have hrest := ih hfirst.safe
    refine ⟨hrest.safe, fun j hj hnot => ?_, ?_⟩
    · obtain ⟨hlive, hget⟩ := hfirst.frame j hj hnot
      obtain ⟨hlive', hget'⟩ := hrest.frame j hlive hnot
      exact ⟨hlive', hget'.trans hget⟩
    · have hlength : (t.serve (.push ((t.arena.get id).copyTo scope))).arena.free.length =
          t.arena.free.length - 1 := by
        rw [serve_push, hand, hfree, List.length_tail]
      rw [hrest.size, hfirst.size, hlength, List.length_cons]
      omega

theorem serves_letGo (order : List LineId) (h : t.Safe) (hall : order ⊆ t.handed) :
    t.Serves order 0 (order.foldl letGo t) := by
  induction order generalizing t with
  | nil => exact ⟨h, fun id hid _ => ⟨hid, rfl⟩, by simp⟩
  | cons id order ih =>
    obtain ⟨hid, hall⟩ := List.cons_subset.mp hall
    have hrest := ih (h.letGo hid) hall
    refine ⟨hrest.safe, fun j hj hnot => ?_, ?_⟩
    · obtain ⟨hne, hnot⟩ := not_or.mp (mt List.mem_cons.mpr hnot)
      obtain ⟨hlive, hget⟩ := letGo_frame hj hne
      obtain ⟨hlive', hget'⟩ := hrest.frame j hlive hnot
      exact ⟨hlive', hget'.trans hget⟩
    · rw [List.foldl_cons, hrest.size, size_letGo]
      simp

theorem serves_serve (h : t.Safe) (r : Demand) (allowed : t.Allows r) : t.Serves r.released r.wanted (t.serve r) := by
  cases r with
  | push l => exact serves_push h l
  | instantiate template scope => exact serves_instantiate scope template h
  | release ids =>
    obtain ⟨order, hmem, heq⟩ := serve_release t ids
    have hserves := serves_letGo order h fun id hid => allowed ((hmem id).mp hid)
    rw [heq]
    exact ⟨hserves.safe, fun id hid hnot => hserves.frame id hid (mt (hmem id).mp hnot), hserves.size⟩

theorem Reached.safe (h : Reached t) : t.Safe := by
  induction h with
  | empty => exact ⟨.refl _, nofun, nofun⟩
  | serve _ r allowed ih => exact (serves_serve ih r allowed).safe

/-- **Numbers of lines are safe.** After any sequence of requests that release only numbers that were handed
out, the numbers in use are different, so are the free ones, nothing stands at a number that was released and not
handed out again, and no such number is found by its owner. A further request leaves all lines in use as they are
but those it releases, and makes new numbers only for what the free ones are too few for. A line that is added
stands at a number that was not in use. -/
theorem allocation_safe (h : Reached t) :
    t.live.Nodup ∧ t.arena.free.Nodup ∧ (∀ id ∈ t.handed, id ∉ t.live → t.arena.get id = Line.vacant) ∧
      (∀ owned, ∀ id ∈ t.arena.ownedBy owned, id ∈ t.live) ∧
      (∀ r, t.Allows r → (∀ id ∈ t.live, id ∉ r.released →
          id ∈ (t.serve r).live ∧ (t.serve r).arena.get id = t.arena.get id) ∧
        (t.serve r).arena.size = t.arena.size + (r.wanted - t.arena.free.length)) ∧
      ∀ l, (t.arena.push l).1 ∉ t.live ∧ (t.arena.push l).2.get (t.arena.push l).1 = l := by
  have hsafe := h.safe
  obtain ⟨hlive, hfree, -⟩ := List.nodup_append.mp hsafe.nodup
  refine ⟨hlive, hfree, fun id hid hnot => ?_, fun owned id hid => ?_, fun r allowed => ?_, fun l => ?_⟩
  · exact hsafe.vacant id ((hsafe.lt_size_iff.mp (hsafe.handed id hid)).resolve_left hnot)
  · obtain ⟨hrange, howned⟩ := List.mem_filter.mp hid
    refine (hsafe.lt_size_iff.mp (List.mem_range.mp hrange)).resolve_right fun hmem => ?_
    rw [hsafe.vacant id hmem] at howned
    cases howned
  · exact ⟨(serves_serve hsafe r allowed).frame, (serves_serve hsafe r allowed).size⟩
  · obtain ⟨hnew, hlt, -, -⟩ := push_spec hsafe l
    exact ⟨hnew, (t.arena.get_push l _).trans (if_pos ⟨rfl, hlt⟩)⟩

/-- Two copies of a line are made, the first is released twice, and its number is handed out again. -/
theorem allocation_safe_reused : let line : Line := Line.copyTo Line.vacant 1
    let t := (((empty.serve (.push line)).serve (.instantiate [0, 0] 2)).serve (.release [1, 1])).serve (.push line)
    (Reached t ∧ t.handed = [0, 1, 2, 1]) ∧
      t.live.Nodup ∧ t.arena.free.Nodup ∧ (∀ id ∈ t.handed, id ∉ t.live → t.arena.get id = Line.vacant) ∧
      (∀ owned, ∀ id ∈ t.arena.ownedBy owned, id ∈ t.live) ∧
      (∀ r, t.Allows r → (∀ id ∈ t.live, id ∉ r.released →
          id ∈ (t.serve r).live ∧ (t.serve r).arena.get id = t.arena.get id) ∧
        (t.serve r).arena.size = t.arena.size + (r.wanted - t.arena.free.length)) ∧
      ∀ l, (t.arena.push l).1 ∉ t.live ∧ (t.arena.push l).2.get (t.arena.push l).1 = l := by
  intro line t
  have hreached : Reached t := by
    refine .serve (.serve (.serve (.serve .empty _ ?_) _ ?_) _ ?_) _ ?_
    · exact List.nil_subset _
    · exact List.nil_subset _
    · change [1, 1] ⊆ [0, 1, 2]
      decide
    · exact List.nil_subset _
  exact ⟨⟨hreached, by cbv⟩, allocation_safe hreached⟩

end Ledger

end CrossAssembler
