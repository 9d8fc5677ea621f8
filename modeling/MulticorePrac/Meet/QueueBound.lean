import MulticorePrac.Meet.Limits
import Mathlib.Data.Set.Card

/-!
# Lab4: the queue array and the end of the search

The `while` loop of `FindMinMaxPath` runs while its queue is not empty, and every fence
that is taken out puts a new one in, so a thread ends only when it has met everyone.
Vertices and fences share an array of `MAX_VERTICES` items.

If a house cannot be reached from another one, the thread of that one never ends, and
writes fence after fence past the end of the array (`isolated_overruns`).  If all houses
are connected, a thread can go as far as its farthest house, and it does so when it runs
alone; the array is then filled with the vertices up to that distance and one fence for
each level.  So the search ends within its array in every schedule iff these fit
(`ends_within_iff`).
-/

namespace MulticorePrac.Meet

/-- Every thread ends after a bounded number of its own steps, a thread that has not ended can
move, and all items of the queues are within the array. -/
structure EndsWithin (t : Town) : Prop where
  ends : ∃ N, ∀ as s, (machine t).run as = some s → ∀ x < t.numHouse, as.count x ≤ N
  moves : ∀ s, (machine t).Reachable s → ∀ x < t.numHouse, (s.finder x).pc ≠ .done →
    ∃ s', step t s x = some s'
  queue : ∀ s, (machine t).Reachable s → ∀ x < t.numHouse,
    (s.finder x).queue.length ≤ MAX_VERTICES

namespace Town

variable (t : Town) (x : Nat)

/-- How far thread `x` goes: to the farthest house, and one level if there is no other house. -/
noncomputable def farthest : Nat := max 1 ((Finset.range t.numHouse).sup (t.dist x))

/-- The vertices within distance `d` of the house with index `x`. -/
def within (d : Nat) : Set Nat := {v | ∃ e ≤ d, At t.graph (t.houseOf x) e v}

theorem one_le_farthest : 1 ≤ t.farthest x := Nat.le_max_left ..

theorem dist_le_farthest {y : Nat} (hy : y < t.numHouse) : t.dist x y ≤ t.farthest x :=
  (Finset.le_sup (f := t.dist x) (Finset.mem_range.mpr hy)).trans (Nat.le_max_right ..)

theorem farthest_le {d : Nat} (h1 : 1 ≤ d) (hd : ∀ y < t.numHouse, t.dist x y ≤ d) :
    t.farthest x ≤ d :=
  Nat.max_le.mpr ⟨h1, Finset.sup_le fun y hy => hd y (Finset.mem_range.mp hy)⟩

theorem ncard_within (d : Nat) : (t.within x d).ncard = (t.bfsUpTo x d).length := by
  have hset : t.within x d = ↑(t.bfsUpTo x d).toFinset := by
    ext v
    rw [Finset.mem_coe, List.mem_toFinset, t.mem_bfsUpTo]
    rfl
  rw [hset, Set.ncard_coe_finset]
  exact List.toFinset_card_of_nodup (Bfs.upTo_nodup _ _ d)

/-- The queue at the end of level `d`: the vertices up to there and a fence after every level. -/
theorem length_bfsQueue (d : Nat) : (t.bfsQueue x d).length = (t.within x d).ncard + d + 1 := by
  rw [ncard_within]
  induction d with
  | zero => rfl
  | succ d ih =>
    show (t.bfsQueue x d ++ t.bfsLevel x (d + 1) ++ [d + 1 + MAX_DEPTH]).length =
      (t.bfsUpTo x d ++ t.bfsLevel x (d + 1)).length + (d + 1) + 1
    rw [List.length_append, List.length_append, List.length_append, ih, List.length_singleton]
    omega

end Town

section
variable {t : Town} {s s' : St} {x y : Nat}

/-! ## All houses are connected -/

/-- A thread that goes on has a house before it; one that has ended did not go past the last. -/
theorem depth_le_farthest (hl : t.Linked) (hs : (machine t).Reachable s) (hx : x < t.numHouse) :
    ((s.finder x).pc ≠ .done → (s.finder x).currDepth + 1 ≤ t.farthest x) ∧
      ((s.finder x).pc = .done → (s.finder x).currDepth ≤ t.farthest x) := by
  have hi := inv_of_reachable hs
  have hlast := lastMet_of_reachable hs hx
  have hone := t.one_le_farthest x
  have hmet : ∀ z < t.numHouse, z ≠ x → Seen s x z → (metAt s x z).depth ≤ t.farthest x :=
    fun z hz hzx hsz => (hi.depth_le_dist hx hz (Ne.symm hzx) hsz).trans (t.dist_le_farthest x hz)
  constructor
  · intro hpc
    rcases hlast.running hpc with h0 | ⟨z, hz, hzx, hp⟩
    · omega
    · by_cases hsz : Seen s x z
      · rw [← hp hsz]
        exact hmet z hz hzx hsz
      · -- the house of `z` is not entered, so it is deeper
        have hd := at_dist (hl x hx z hz)
        have hle := t.dist_le_farthest x hz
        obtain ⟨_, _, h⟩ := hi.searching x hx
        have hfar : ¬ t.dist x z ≤ (s.finder x).currDepth := fun hle =>
          hi.house_of_not_seen hx hz (Ne.symm hzx) hsz (h.marked_of_at hle hd)
        omega
  · intro hpc
    obtain ⟨d, hdepth, h0 | ⟨z, hz, hzx, hp⟩⟩ := hlast.ended hpc
    · omega
    · have hsz := (hi.seen_all hx).mp (hi.done x hx hpc) z hz
      rw [hdepth, ← hp hsz]
      exact hmet z hz hzx hsz

/-- No schedule makes a queue longer than it is at the farthest house. -/
theorem queue_le (hl : t.Linked) (hs : (machine t).Reachable s) (hx : x < t.numHouse) :
    (s.finder x).queue.length ≤ (t.bfsQueue x (t.farthest x)).length := by
  obtain ⟨hrun, hend⟩ := depth_le_farthest hl hs hx
  obtain ⟨_, next, h⟩ := (inv_of_reachable hs).searching x hx
  rw [h.queue, List.length_append]
  by_cases hpc : (s.finder x).pc = .done
  · rw [h.closed hpc, List.length_nil]
    exact (bfsQueue_grows (hend hpc)).length_le
  · refine Nat.le_trans ?_ (bfsQueue_grows (hrun hpc)).length_le
    have hnext := h.next_grows.length_le
    show _ ≤ (t.bfsQueue x _ ++ t.bfsLevel x _ ++ [_]).length
    rw [List.length_append, List.length_append]
    omega

/-- A thread that runs alone fills its queue up to the farthest house. -/
theorem queue_alone (hl : t.Linked) (hx : x < t.numHouse) : ∃ s, (machine t).Reachable s ∧
    (s.finder x).queue = t.bfsQueue x (t.farthest x) := by
  obtain ⟨s, hs, hpc, hmet⟩ := runs_alone hl hx
  have hi := inv_of_reachable hs
  obtain ⟨_, next, h⟩ := hi.searching x hx
  obtain ⟨d, hd, -⟩ := (lastMet_of_reachable hs hx).ended hpc
  have hge : t.farthest x ≤ (s.finder x).currDepth := by
    refine t.farthest_le x (by omega) fun y hy => ?_
    by_cases hxy : x = y
    · subst hxy
      unfold Town.dist
      rw [SimpleGraph.dist_self]
      exact Nat.zero_le _
    · obtain ⟨hsy, hdist⟩ := hmet y hy hxy
      rw [← hdist]
      exact hi.depth_done hx hy hxy hsy hpc
  have hle := (depth_le_farthest hl hs hx).2 hpc
  refine ⟨s, hs, ?_⟩
  rw [h.queue, h.closed hpc, List.append_nil, Nat.le_antisymm hle hge]

/-! ## A house that cannot be reached -/

theorem never_done (hx : x < t.numHouse) (hy : y < t.numHouse)
    (hn : ¬t.graph.Reachable (t.houseOf x) (t.houseOf y)) (hs : (machine t).Reachable s) :
    (s.finder x).pc ≠ .done := by
  intro hpc
  have hi := inv_of_reachable hs
  have hxy : x ≠ y := by
    rintro rfl
    exact hn (SimpleGraph.Reachable.refl _)
  have hm := hi.met x hx y hy hxy ((hi.seen_all hx).mp (hi.done x hx hpc) y hy)
  obtain ⟨_, _, h⟩ := hi.searching y hy
  obtain ⟨e, -, hat⟩ := h.at_of_marked hm.theirs
  exact hn ((at_iff.mp hm.level).1.trans (at_iff.mp hat).1.symm)

/-- Its thread can take any number of steps. -/
theorem runs_on (hx : x < t.numHouse) (hy : y < t.numHouse)
    (hn : ¬t.graph.Reachable (t.houseOf x) (t.houseOf y)) (n : Nat) :
    ∃ s, (machine t).run (List.replicate n x) = some s := by
  obtain ⟨s, hr, -⟩ := (machine t).repeats (fun _ s => (machine t).Reachable s) x
    (fun _ s hs => by
      obtain ⟨s', hs'⟩ := moves hx (never_done hx hy hn hs)
      exact ⟨s', hs', hs.step _ hs'⟩) n 0 _ (Machine.Reachable.init _)
  exact ⟨s, hr⟩

end

/-! ## The theorem -/

/-- In every schedule every thread ends and stays within its array, iff all houses are connected
and, for each of them, the vertices up to the farthest house and the fences fit. -/
theorem ends_within_iff (t : Town) : EndsWithin t ↔ t.Linked ∧ ∀ x < t.numHouse,
    (t.within x (t.farthest x)).ncard + t.farthest x + 1 ≤ MAX_VERTICES := by
  constructor
  · intro h
    have hl : t.Linked := by
      intro x hx y hy
      by_contra hn
      obtain ⟨N, hN⟩ := h.ends
      obtain ⟨s, hr⟩ := runs_on hx hy hn (N + 1)
      have := hN _ s hr x hx
      rw [List.count_replicate_self] at this
      omega
    refine ⟨hl, fun x hx => ?_⟩
    obtain ⟨s, hs, hq⟩ := queue_alone hl hx
    have hle := h.queue s hs x hx
    rw [hq, t.length_bfsQueue] at hle
    exact hle
  · rintro ⟨hl, hfit⟩
    refine ⟨⟨left t (machine t).init, fun as s hr x hx => ?_⟩, fun s hs x hx hpc => moves hx hpc,
      fun s hs x hx => ?_⟩
    · have hlen := (machine t).length_le_measure (Bounded t) (left t)
        (fun _ _ _ hb hs => ⟨bounded_step hl hb hs, left_step hb hs⟩) as _ s
        (bounded_of_reachable hl (Machine.Reachable.init _)) hr
      exact List.count_le_length.trans hlen
    · have hq := queue_le hl hs hx
      rw [t.length_bfsQueue] at hq
      exact hq.trans (hfit x hx)

/-! ## Two houses without an edge -/

def isolatedTown : Town where
  toProblem := .ofFits [1, 2] 2 [] (by decide)
  vertices_le := by decide
  houses_nodup := by decide

theorem isolatedTown_unreachable : ¬isolatedTown.graph.Reachable 1 2 := by
  intro h
  have hat := at_dist h
  cases hd : isolatedTown.graph.dist 1 2 with
  | zero =>
    rw [hd] at hat
    exact absurd (at_zero.mp hat) (by decide)
  | succ d =>
    rw [hd] at hat
    obtain ⟨u, -, ha⟩ := hat.pred
    rw [House.Problem.graph, SimpleGraph.fromRel_adj] at ha
    rcases ha.2 with ⟨row, hrow, -⟩ | ⟨row, hrow, -⟩
    · cases hrow
    · cases hrow

/-- Thread 0 is at the fence that ends its queue, and has not met thread 1. -/
def AtLastFence (k : Nat) (s : St) : Prop :=
  (s.finder 0).pc = .dequeue ∧ (s.finder 0).visitedFlag = FLAG 0 ∧
    (s.finder 0).queue.length = (s.finder 0).front + 1 ∧
    (s.finder 0).queue[(s.finder 0).front]? = some ((s.finder 0).currDepth + MAX_DEPTH) ∧
    k ≤ (s.finder 0).front

theorem atLastFence_step {k : Nat} {s : St} (h : AtLastFence k s) :
    ∃ s', step isolatedTown s 0 = some s' ∧ AtLastFence (k + 1) s' := by
  obtain ⟨hpc, hv, hlen, hget, hk⟩ := h
  have hfence : (s.finder 0).dequeue isolatedTown = (s.finder 0).fence isolatedTown := by
    unfold Finder.dequeue
    rw [hget]
    exact if_pos (Nat.le_add_left _ _)
  have hne : FLAG 0 ≠ isolatedTown.gFullFlag := by decide
  refine ⟨s.setFinder 0 ((s.finder 0).fence isolatedTown), ?_, ?_⟩
  · unfold step
    rw [if_pos (by decide), hpc, hfence]
  · have hself : (s.setFinder 0 ((s.finder 0).fence isolatedTown)).finder 0 =
        (s.finder 0).fence isolatedTown := Function.update_self 0 _ s.finder
    unfold AtLastFence
    rw [hself]
    refine ⟨if_neg (by rw [hv]; exact hne), hv, ?_, ?_, Nat.succ_le_succ hk⟩
    · show ((s.finder 0).queue ++ [_]).length = _
      rw [List.length_append, hlen]
      rfl
    · show ((s.finder 0).queue ++ [_])[(s.finder 0).front + 1]? = _
      rw [← hlen, List.getElem?_concat_length]
      rfl

/-- Thread 0 never ends, and its queue grows past the array. -/
theorem isolated_overruns :
    (¬∃ s, (machine isolatedTown).Reachable s ∧ (s.finder 0).pc = .done) ∧
    ∃ s, (machine isolatedTown).Reachable s ∧ MAX_VERTICES < (s.finder 0).queue.length := by
  refine ⟨fun ⟨s, hs, hpc⟩ => never_done (t := isolatedTown) (x := 0) (y := 1) (by decide) (by decide)
    isolatedTown_unreachable hs hpc, ?_⟩
  obtain ⟨s, hs, h⟩ : ∃ s, (machine isolatedTown).Reachable s ∧ AtLastFence 0 s :=
    ⟨_, ⟨[0, 0], rfl⟩, rfl, rfl, rfl, rfl, Nat.zero_le _⟩
  obtain ⟨s', hr, h'⟩ := (machine isolatedTown).repeats AtLastFence 0
    (fun _ _ h => atLastFence_step h) MAX_VERTICES 0 s h
  refine ⟨s', hs.runFrom _ hr, ?_⟩
  obtain ⟨-, -, hlen, -, hk⟩ := h'
  omega

end MulticorePrac.Meet
