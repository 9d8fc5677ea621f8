import MulticorePrac.Meet.Depths
import Mathlib.Algebra.Order.BigOperators.Group.Finset

/-!
# Lab4: the meeting depths and the distance of two houses

The comment of `MakeResult` says that the distance of two houses is `D1 + D2` or
`D1 + D2 - 1`, with `D1` and `D2` the depths at which their threads first met each
other.  `meeting_depths` proves it for every schedule, with the threads' end: when
every two houses are connected no thread runs for ever, and one that has ended has
met all others.
-/

namespace MulticorePrac.Meet

/-- Every two houses are connected, as they are in a connected graph. -/
def Town.Linked (t : Town) : Prop :=
  ∀ x < t.numHouse, ∀ y < t.numHouse, t.graph.Reachable (t.houseOf x) (t.houseOf y)

/-- The distance of the houses with indices `x` and `y`. -/
noncomputable def Town.dist (t : Town) (x y : Nat) : Nat := t.graph.dist (t.houseOf x) (t.houseOf y)

/-- All threads have left their loops. -/
def Finished (t : Town) (s : St) : Prop := ∀ x < t.numHouse, (s.finder x).pc = .done

/-- What a step of thread `x` does to its record of `y`: the first `fetch_and_or` that returns the
bit of `y` sets it to the vertex and `curr_depth + 1`, and it stays. -/
structure Records (s s' : St) (x y : Nat) : Prop where
  sees : ∀ v, (s.finder x).pc = .mark v → Marked s y v → Seen s' x y
  first : ¬Seen s x y → Seen s' x y → ∃ v, (s.finder x).pc = .mark v ∧ Marked s y v ∧
    metAt s' x y = ⟨v, (s.finder x).currDepth + 1⟩
  keeps : Seen s x y → Seen s' x y ∧ metAt s' x y = metAt s x y

section
variable {t : Town} {s s' : St} {x y : Nat}

/-! ## The two bounds -/

theorem Inv.depth_le (hi : Inv t s) (hx : x < t.numHouse) (hy : y < t.numHouse) (hxy : x ≠ y)
    (hs : Seen s x y) : (metAt s x y).depth ≤ (s.finder x).currDepth + 1 := by
  have hm := hi.met x hx y hy hxy hs
  obtain ⟨cur, next, h⟩ := hi.searching x hx
  obtain ⟨e, he, hat⟩ := h.at_of_marked hm.mine
  have := hat.inj hm.level
  omega

/-- A meeting at `v` or before it is not deeper than `v`. -/
theorem Inv.metBy_le (hi : Inv t s) (hx : x < t.numHouse) (hy : y < t.numHouse) (hxy : x ≠ y)
    {v e : Nat} (h : MetBy s x y v) (hv : Marked s x v) (he : At t.graph (t.houseOf x) e v) :
    (metAt s x y).depth ≤ e := by
  obtain ⟨cur, next, hq⟩ := hi.searching x hx
  exact hq.level_le hx (hi.met x hx y hy hxy h.1).level he (hi.mem_queue hx hv) h.2

/-- Both threads pass a vertex of a shortest path before they meet, unless the depths are small. -/
theorem Inv.depths_le (hi : Inv t s) (hx : x < t.numHouse) (hy : y < t.numHouse) (hxy : x ≠ y)
    (hs : Seen s x y) (hs' : Seen s y x) {d : Nat}
    (hd : At t.graph (t.houseOf x) d (t.houseOf y)) :
    (metAt s x y).depth + (metAt s y x).depth ≤ d + 1 := by
  by_contra hlt
  have hx1 := hi.depth_le hx hy hxy hs
  have hy1 := hi.depth_le hy hx (Ne.symm hxy) hs'
  have hpx := (hi.met x hx y hy hxy hs).pos
  have hpy := (hi.met y hy x hx (Ne.symm hxy) hs').pos
  obtain ⟨e, he⟩ : ∃ e, e = min ((metAt s x y).depth - 1) d := ⟨_, rfl⟩
  obtain ⟨p, hp, hq⟩ := hd.split e (by omega)
  obtain ⟨_, _, hsx⟩ := hi.searching x hx
  obtain ⟨_, _, hsy⟩ := hi.searching y hy
  have hmx : Marked s x p := hsx.marked_of_at (by omega) hp
  have hmy : Marked s y p := hsy.marked_of_at (by omega) hq.symm
  rcases hi.both x hx y hy hxy p hmx hmy with h | h
  · have := hi.metBy_le hx hy hxy h hmx hp
    omega
  · have := hi.metBy_le hy hx (Ne.symm hxy) h hmy hq.symm
    omega

/-- The vertex of the earlier meeting joins two paths of the recorded lengths. -/
theorem Inv.le_depths (hi : Inv t s) (hx : x < t.numHouse) (hy : y < t.numHouse) (hxy : x ≠ y)
    (hs : Seen s x y) (hs' : Seen s y x) {d : Nat}
    (hd : At t.graph (t.houseOf x) d (t.houseOf y)) :
    d ≤ (metAt s x y).depth + (metAt s y x).depth := by
  rcases hi.crossed x hx y hy hxy hs hs' with ⟨e, he, h⟩ | ⟨e, he, h⟩
  · have := h.triangle (hi.met y hy x hx (Ne.symm hxy) hs').level.symm hd
    omega
  · have := (hi.met x hx y hy hxy hs).level.triangle h.symm hd
    omega

/-! ## The threads end -/

/-- A thread that has not met `y` has not come to the house of `y`. -/
theorem Inv.house_of_not_seen (hi : Inv t s) (hx : x < t.numHouse) (hy : y < t.numHouse)
    (hxy : x ≠ y) (hs : ¬Seen s x y) : ¬Marked s x (t.houseOf y) := by
  intro hm
  obtain ⟨_, _, hsy⟩ := hi.searching y hy
  have h0 : At t.graph (t.houseOf y) 0 (t.houseOf y) := at_zero.mpr rfl
  have hm' : Marked s y (t.houseOf y) := hsy.marked_of_at (Nat.zero_le _) h0
  rcases hi.both x hx y hy hxy _ hm hm' with h | h
  · exact hs h.1
  · have h1 := hi.metBy_le hy hx (Ne.symm hxy) h hm' h0
    have h2 := (hi.met y hy x hx (Ne.symm hxy) h.1).pos
    omega

theorem Inv.seen_all (hi : Inv t s) (hx : x < t.numHouse) :
    (s.finder x).visitedFlag = t.gFullFlag ↔ ∀ y < t.numHouse, Seen s x y := by
  have hle := t.numHouse_le
  constructor
  · intro h y hy
    unfold Seen
    rw [h]
    unfold Town.gFullFlag
    rw [getLsbD_fullFlag (by omega)]
    exact decide_eq_true hy
  · intro h
    refine BitVec.eq_of_getLsbD_eq fun y hy => ?_
    unfold Town.gFullFlag
    rw [getLsbD_fullFlag hy]
    by_cases hyn : y < t.numHouse
    · rw [decide_eq_true hyn]
      exact h y hyn
    · rw [decide_eq_false hyn]
      by_contra hb
      exact hyn (hi.seen_lt x hx y (eq_true_of_ne_false hb))

/-- A thread that has not met everyone has a house before it, so its depth is bounded. -/
theorem Inv.depth_lt (hl : t.Linked) (hi : Inv t s) (hx : x < t.numHouse)
    (hn : (s.finder x).visitedFlag ≠ t.gFullFlag) :
    (s.finder x).currDepth + 1 < t.numVertices := by
  rw [Ne, hi.seen_all hx] at hn
  push Not at hn
  obtain ⟨y, hy, hs⟩ := hn
  have hxy : x ≠ y := fun h => hs (h ▸ hi.own x hx)
  have hd := at_dist (hl x hx y hy)
  have hlt := t.at_lt (t.house_range hx) hd
  obtain ⟨_, _, h⟩ := hi.searching x hx
  have hfar : ¬ t.graph.dist (t.houseOf x) (t.houseOf y) ≤ (s.finder x).currDepth :=
    fun hle => hi.house_of_not_seen hx hy hxy hs (h.marked_of_at hle hd)
  omega

/-- The bits of thread `x`. -/
def St.bits (s : St) (x : Nat) : Nat → Bool := fun v => (s.flags v).getLsbD x

def Pc.left : Pc → Nat
  | .done => 0
  | .dequeue => 1
  | .test => 2
  | .mark _ => 3

/-- What a thread has left to do: vertices without its bit, the queue, the neighbours, the fences. -/
def Finder.left (t : Town) (bits : Nat → Bool) (f : Finder) : Nat :=
  40 * House.unchecked t.toProblem bits + 30 * (f.queue.length - f.front) + 2 * f.nbrs.length +
    f.pc.left + (t.numVertices + 1 - f.currDepth)

theorem left_dequeue {flags : Nat → House.Bits} {f : Finder} {cur next : List Nat} {bits : Nat → Bool}
    (hx : x < t.numHouse) (h : Searching t x flags f cur next) (hpc : f.pc = .dequeue)
    (hd : f.currDepth ≤ t.numVertices) : (f.dequeue t).left t bits < f.left t bits := by
  have hn := h.idle (Or.inl hpc)
  have hlen := congrArg List.length h.rest
  rw [List.length_drop, List.length_append, List.length_cons] at hlen
  cases cur with
  | nil =>
    rw [(h.dequeue_fence hpc).1]
    have hpc' : ((f.fence t).pc).left ≤ 1 := by
      show (if f.visitedFlag = t.gFullFlag then Pc.done else Pc.dequeue).left ≤ 1
      split
      · exact Nat.zero_le 1
      · exact Nat.le_refl 1
    unfold Finder.left
    rw [hpc]
    show 40 * _ + 30 * ((f.queue ++ [_]).length - (f.front + 1)) + 2 * f.nbrs.length +
      ((f.fence t).pc).left + (t.numVertices + 1 - (f.currDepth + 1)) < _ + Pc.left .dequeue + _
    rw [List.length_append, List.length_singleton, show Pc.left .dequeue = 1 from rfl]
    omega
  | cons u us =>
    rw [(h.dequeue_vertex hx hpc).1]
    unfold Finder.left
    rw [hpc, hn]
    show 40 * _ + 30 * (f.queue.length - (f.front + 1)) + 2 * (t.gGraph u).length + 2 +
      (t.numVertices + 1 - f.currDepth) < _ + 2 * 0 + 1 + _
    have hdeg : (t.gGraph u).length ≤ 10 := t.length_adjlist u
    omega

theorem left_test {flags : Nat → House.Bits} {f : Finder} {bits : Nat → Bool} (hpc : f.pc = .test) :
    (f.test flags x).left t bits < f.left t bits := by
  unfold Finder.test
  split
  · unfold Finder.left
    simp only [hpc, Pc.left]
    omega
  · rename_i v nbrs hn
    split
    · unfold Finder.left
      simp only [hpc, hn, List.length_cons]
      omega
    · unfold Finder.left
      simp only [hpc, hn, List.length_cons, Pc.left]
      omega

theorem left_enter {f : Finder} {bits : Nat → Bool} {v : Nat} (b : House.Bits)
    (hpc : f.pc = .mark v) (hv : v ≤ t.numVertices) (hb : bits v = false) :
    (f.enter v b).left t (Function.update bits v true) < f.left t bits := by
  have hu := House.unchecked_mark (p := t.toProblem) hv hb
  obtain ⟨hfront, hnbrs, hdepth, -⟩ := f.enter_rest v b
  unfold Finder.left
  rw [hfront, hnbrs, hdepth, Finder.enter_queue, Finder.enter_pc, hpc, List.length_append,
    List.length_singleton]
  show _ + 2 + _ < _ + 3 + _
  omega

/-- The invariant and the bound for the threads that are still in their loops. -/
def Bounded (t : Town) (s : St) : Prop :=
  Inv t s ∧ ∀ x < t.numHouse, (s.finder x).pc ≠ .done → (s.finder x).currDepth ≤ t.numVertices

open Finset in
def left (t : Town) (s : St) : Nat := ∑ x ∈ range t.numHouse, (s.finder x).left t (s.bits x)

theorem left_lt {z : Nat} (hz : z < t.numHouse)
    (hother : ∀ y, y ≠ z → s'.finder y = s.finder y ∧ s'.bits y = s.bits y)
    (hlt : (s'.finder z).left t (s'.bits z) < (s.finder z).left t (s.bits z)) :
    left t s' < left t s := by
  refine Finset.sum_lt_sum (fun y _ => ?_) ⟨z, Finset.mem_range.mpr hz, hlt⟩
  by_cases hy : y = z
  · subst hy; exact Nat.le_of_lt hlt
  · rw [(hother y hy).1, (hother y hy).2]

theorem bits_mark (hx : x < t.numHouse) (v : Nat) :
    (s.mark x v).bits x = Function.update (s.bits x) v true ∧
      ∀ y, y ≠ x → (s.mark x v).bits y = s.bits y := by
  have hflags := mark_flags (s := s) (v := v) (show x < 64 by have := t.numHouse_le; omega)
  constructor
  · funext w
    by_cases hw : w = v
    · subst hw
      rw [Function.update_self]
      exact (hflags x w).mpr (Or.inr ⟨rfl, rfl⟩)
    · rw [Function.update_of_ne hw]
      exact Bool.eq_iff_iff.mpr ((hflags x w).trans (by simp [hw, St.bits]))
  · intro y hy
    funext w
    exact Bool.eq_iff_iff.mpr ((hflags y w).trans (by simp [hy, St.bits]))

theorem left_step (hb : Bounded t s) (hs : step t s x = some s') : left t s' < left t s := by
  obtain ⟨hi, hbound⟩ := hb
  obtain ⟨hx, hc⟩ := step_cases hs
  obtain ⟨_, _, h⟩ := hi.searching x hx
  have hself : ∀ f, (s.setFinder x f).finder x = f := fun f => Function.update_self ..
  have hother : ∀ f y, y ≠ x → (s.setFinder x f).finder y = s.finder y :=
    fun f y hy => Function.update_of_ne hy ..
  obtain ⟨hpc, rfl⟩ | ⟨hpc, rfl⟩ | ⟨v, hpc, rfl⟩ := hc
  · refine left_lt hx (fun y hy => ⟨hother _ y hy, rfl⟩) ?_
    rw [hself]
    exact left_dequeue hx h hpc (hbound x hx (by rw [hpc]; exact fun hd => by cases hd))
  · refine left_lt hx (fun y hy => ⟨hother _ y hy, rfl⟩) ?_
    rw [hself]
    exact left_test hpc
  · obtain ⟨hb, hb'⟩ := bits_mark (s := s) hx v
    refine left_lt hx (fun y hy => ⟨hother _ y hy, hb' y hy⟩) ?_
    rw [hb, show (s.mark x v).finder x = (s.finder x).enter v (s.flags v) from hself _]
    obtain ⟨hn, hn'⟩ := h.fresh v hpc
    have hfree : s.bits x v = false := by
      by_contra hm
      exact ((h.marked v).mp (eq_true_of_ne_false hm)).elim hn hn'
    -- a vertex about to be marked is a neighbour, so it is one of the graph's
    have hflags : ∀ w, ((s.mark x v).flags w).getLsbD x = true ↔
        (s.flags w).getLsbD x = true ∨ w = v := by
      intro w
      rw [mark_flags (by have := t.numHouse_le; omega)]
      simp
    have h' := h.enter hpc (s.flags v) hflags
    have hat := h'.next_at (List.mem_append_right _ List.mem_cons_self)
    exact left_enter _ hpc (t.at_range (t.house_range hx) hat).2 hfree

/-- Only a fence changes the depth of a thread, and after it the thread has ended or has not met
everyone. -/
theorem depth_step (hi : Inv t s) (hs : step t s x = some s') :
    ((s'.finder x).currDepth = (s.finder x).currDepth ∧ (s'.finder x).pc ≠ .done) ∨
      ((s'.finder x).currDepth = (s.finder x).currDepth + 1 ∧
        (s'.finder x).visitedFlag = (s.finder x).visitedFlag ∧
        ((s'.finder x).pc = .done ∨ (s.finder x).visitedFlag ≠ t.gFullFlag)) := by
  obtain ⟨hx, hc⟩ := step_cases hs
  have hself : ∀ f, (s.setFinder x f).finder x = f := fun f => Function.update_self ..
  obtain ⟨hpc, rfl⟩ | ⟨hpc, rfl⟩ | ⟨v, hpc, rfl⟩ := hc
  · obtain ⟨cur, next, h⟩ := hi.searching x hx
    rw [hself]
    cases cur with
    | nil =>
      rw [(h.dequeue_fence hpc).1]
      refine Or.inr ⟨rfl, rfl, ?_⟩
      by_cases hf : (s.finder x).visitedFlag = t.gFullFlag
      · exact Or.inl (if_pos hf)
      · exact Or.inr hf
    | cons u us =>
      rw [(h.dequeue_vertex hx hpc).1]
      exact Or.inl ⟨rfl, fun hd => by cases hd⟩
  · rw [hself]
    left
    unfold Finder.test
    split
    · exact ⟨rfl, fun hd => by cases hd⟩
    · split
      · exact ⟨rfl, fun hd => by rw [hpc] at hd; cases hd⟩
      · exact ⟨rfl, fun hd => by cases hd⟩
  · rw [show (s.mark x v).finder x = (s.finder x).enter v (s.flags v) from hself _]
    exact Or.inl ⟨((s.finder x).enter_rest v (s.flags v)).2.2.1, fun hd => by cases hd⟩

theorem not_done_of_step (hs : step t s x = some s') : (s.finder x).pc ≠ .done := by
  obtain ⟨-, ⟨hpc, -⟩ | ⟨hpc, -⟩ | ⟨v, hpc, -⟩⟩ := step_cases hs <;>
    (rw [hpc]; exact fun hd => by cases hd)

theorem bounded_step (hl : t.Linked) (hb : Bounded t s) (hs : step t s x = some s') :
    Bounded t s' := by
  refine ⟨inv_step hb.1 hs, fun y hy hd => ?_⟩
  obtain ⟨hi, hbound⟩ := hb
  by_cases hyx : y = x
  · subst hyx
    obtain ⟨hdepth, -⟩ | ⟨hdepth, -, hpc | hn⟩ := depth_step hi hs
    · rw [hdepth]
      exact hbound y hy (not_done_of_step hs)
    · exact absurd hpc hd
    · -- the thread goes on after the fence because someone is not met
      rw [hdepth]
      exact Nat.le_of_lt (hi.depth_lt hl hy hn)
  · rw [finder_of_ne hs hyx] at hd ⊢
    exact hbound y hy hd

/-- A thread that has not ended can take a step. -/
theorem moves (hx : x < t.numHouse) (hpc : (s.finder x).pc ≠ .done) :
    ∃ s', step t s x = some s' := by
  unfold step
  simp only [if_pos hx]
  cases h : (s.finder x).pc with
  | done => exact absurd h hpc
  | dequeue => exact ⟨_, rfl⟩
  | test => exact ⟨_, rfl⟩
  | mark v => exact ⟨_, rfl⟩

theorem thread_moves (hn : ¬Finished t s) : ∃ x s', step t s x = some s' := by
  unfold Finished at hn
  push Not at hn
  obtain ⟨x, hx, hpc⟩ := hn
  exact ⟨x, moves hx hpc⟩

theorem bounded_of_reachable (hl : t.Linked) (hs : (machine t).Reachable s) : Bounded t s :=
  (machine t).invariant (Bounded t) ⟨inv_initial t, fun _ _ _ => Nat.zero_le _⟩
    (fun _ _ _ hb hs => bounded_step hl hb hs) hs

/-- The threads can always be run to their ends. -/
theorem finishes (hl : t.Linked) (hs : (machine t).Reachable s) :
    ∃ as s', (machine t).runFrom s as = some s' ∧ Finished t s' :=
  (machine t).reaches_of_measure (Bounded t) (Finished t) (left t)
    (fun _ _ _ hb hs => ⟨bounded_step hl hb hs, left_step hb hs⟩)
    (fun _ _ hn => thread_moves hn) s (bounded_of_reachable hl hs)

/-! ## The theorem -/

theorem records_step (hs : step t s x = some s') (hy : y < t.numHouse) : Records s s' x y := by
  have hy64 : y < 64 := by have := t.numHouse_le; omega
  obtain ⟨hx, hc⟩ := step_cases hs
  have hself : ∀ f, (s.setFinder x f).finder x = f := fun f => Function.update_self ..
  have hquiet : ∀ f, f.visitedFlag = (s.finder x).visitedFlag → f.info = (s.finder x).info →
      (∀ v, (s.finder x).pc ≠ .mark v) → Records s (s.setFinder x f) x y := by
    intro f hv hinfo hpc
    have hseen : Seen (s.setFinder x f) x y ↔ Seen s x y := by
      unfold Seen
      rw [hself, hv]
    refine ⟨fun v h => absurd h (hpc v), fun hn h => absurd (hseen.mp h) hn, fun h => ⟨hseen.mpr h, ?_⟩⟩
    unfold metAt
    rw [hself, hinfo]
  obtain ⟨hpc, rfl⟩ | ⟨hpc, rfl⟩ | ⟨v, hpc, rfl⟩ := hc
  · have hsame : ((s.finder x).dequeue t).visitedFlag = (s.finder x).visitedFlag ∧
        ((s.finder x).dequeue t).info = (s.finder x).info := by
      unfold Finder.dequeue
      split
      · exact ⟨rfl, rfl⟩
      · split <;> exact ⟨rfl, rfl⟩
    exact hquiet _ hsame.1 hsame.2 (fun v h => by rw [hpc] at h; cases h)
  · have hsame : ((s.finder x).test s.flags x).visitedFlag = (s.finder x).visitedFlag ∧
        ((s.finder x).test s.flags x).info = (s.finder x).info := by
      unfold Finder.test
      split
      · exact ⟨rfl, rfl⟩
      · split <;> exact ⟨rfl, rfl⟩
    exact hquiet _ hsame.1 hsame.2 (fun v h => by rw [hpc] at h; cases h)
  · have hseen : Seen (s.mark x v) x y ↔ Seen s x y ∨ Marked s y v := by
      show ((s.mark x v).finder x).visitedFlag.getLsbD y = true ↔ _
      rw [show (s.mark x v).finder x = _ from hself _]
      exact Finder.enter_seen _ v _ hy64
    have hinfo : metAt (s.mark x v) x y = if Marked s y v ∧ ¬Seen s x y then
        ⟨v, (s.finder x).currDepth + 1⟩ else metAt s x y := by
      unfold metAt
      rw [show (s.mark x v).finder x = _ from hself _]
      exact Finder.enter_info _ v _ hy64
    refine ⟨fun w hw hm => ?_, fun hn h => ?_, fun h => ⟨hseen.mpr (Or.inl h), ?_⟩⟩
    · rw [hpc] at hw
      cases hw
      exact hseen.mpr (Or.inr hm)
    · have hm := (hseen.mp h).resolve_left hn
      exact ⟨v, hpc, hm, by rw [hinfo, if_pos ⟨hm, hn⟩]⟩
    · rw [hinfo, if_neg (fun hc => hc.2 h)]

end

/-- Two threads that have met each other did so at depths `D1` and `D2` with
`D1 + D2 - 1 ≤ dist ≤ D1 + D2`, all threads can run to their ends, and then every two have met. -/
theorem meeting_depths (t : Town) (hl : t.Linked) :
    (∀ s x y s', step t s x = some s' → y < t.numHouse → Records s s' x y) ∧
    (∀ s, (machine t).Reachable s →
      ∃ as s', (machine t).runFrom s as = some s' ∧ Finished t s') ∧
    ∀ s, (machine t).Reachable s → Finished t s →
      ∀ x < t.numHouse, ∀ y < t.numHouse, x ≠ y → Seen s x y ∧ Seen s y x ∧
        (metAt s x y).depth + (metAt s y x).depth - 1 ≤ t.dist x y ∧
        t.dist x y ≤ (metAt s x y).depth + (metAt s y x).depth := by
  refine ⟨fun s x y s' hs hy => records_step hs hy, fun s hs => finishes hl hs, ?_⟩
  intro s hs hf x hx y hy hxy
  have hi := inv_of_reachable hs
  have hsx := (hi.seen_all hx).mp (hi.done x hx (hf x hx)) y hy
  have hsy := (hi.seen_all hy).mp (hi.done y hy (hf y hy)) x hx
  have hd := at_dist (hl x hx y hy)
  have hle := hi.depths_le hx hy hxy hsx hsy hd
  refine ⟨hsx, hsy, ?_, hi.le_depths hx hy hxy hsx hsy hd⟩
  unfold Town.dist
  omega

/-- Two houses that are neighbours. -/
def pairTown : Town where
  toProblem := .ofFits [1, 2] 2 [(1, [2])] (by decide)
  vertices_le := by decide
  houses_nodup := by decide

theorem Town.linked_of_reachable {t : Town} (hn : t.numHouse = 2)
    (h : t.graph.Reachable (t.houseOf 0) (t.houseOf 1)) : t.Linked := by
  intro x hx y hy
  rw [hn] at hx hy
  obtain rfl | rfl : x = 0 ∨ x = 1 := by omega
  · obtain rfl | rfl : y = 0 ∨ y = 1 := by omega
    · exact SimpleGraph.Reachable.refl _
    · exact h
  · obtain rfl | rfl : y = 0 ∨ y = 1 := by omega
    · exact h.symm
    · exact SimpleGraph.Reachable.refl _

theorem Town.linked_of_two {t : Town} (hn : t.numHouse = 2)
    (h : t.graph.Adj (t.houseOf 0) (t.houseOf 1)) : t.Linked :=
  t.linked_of_reachable hn h.reachable

theorem pairTown_adj : pairTown.graph.Adj (pairTown.houseOf 0) (pairTown.houseOf 1) := by
  rw [House.Problem.graph, SimpleGraph.fromRel_adj]
  exact ⟨by decide, Or.inl ⟨(1, [2]), by decide, rfl, by decide⟩⟩

theorem meeting_depths_pair :
    pairTown.Linked ∧ ∀ s, (machine pairTown).Reachable s → Finished pairTown s →
      (metAt s 0 1).depth + (metAt s 1 0).depth - 1 ≤ pairTown.dist 0 1 := by
  have hl := Town.linked_of_two rfl pairTown_adj
  exact ⟨hl, fun s hs hf => ((meeting_depths pairTown hl).2.2 s hs hf 0 (by decide) 1 (by decide)
    (by decide)).2.2.1⟩

end MulticorePrac.Meet
