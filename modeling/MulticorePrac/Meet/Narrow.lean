import MulticorePrac.Meet.Limits

/-!
# Lab4: the meeting depths in 16 bits

`VisitInfo::depth` is a `uint16_t`, and `FindMinMaxPath` stores the `int`
`curr_depth + 1` in it.  Nothing reads the depths before `MakeResult`, so the search is
the one of the model and `narrow` is what `MakeResult` finds.  A meeting is as deep as
the distance of the two houses when one thread runs before the other starts, so the
stored depths are the true ones in every schedule iff no two houses are `2 ^ 16` apart
(`depths_exact_iff`); on a path of that length the depth is stored as 0
(`long_path_wraps`).
-/

namespace MulticorePrac.Meet

/-- The state with the depths of `g_visit_info` as they are stored. -/
def narrow (s : St) : St :=
  { s with
    finder := fun x => { s.finder x with
      info := fun y => ⟨((s.finder x).info y).vid, ((s.finder x).info y).depth % 2 ^ 16⟩ } }

theorem metAt_narrow (s : St) (x y : Nat) :
    metAt (narrow s) x y = ⟨(metAt s x y).vid, (metAt s x y).depth % 2 ^ 16⟩ := rfl

/-- From the step in which thread `x` first sees the flag of `y` on, the stored depth is the
`curr_depth + 1` of that step. -/
def StoredExact (t : Town) : Prop :=
  ∀ s x s' y as u, (machine t).Reachable s → step t s x = some s' → y < t.numHouse →
    ¬Seen s x y → Seen s' x y → (machine t).runFrom s' as = some u →
      (metAt (narrow u) x y).depth = (s.finder x).currDepth + 1

/-- The sums of `MakeResult` are those of the true depths. -/
def SumsExact (t : Town) : Prop :=
  ∀ s, (machine t).Reachable s → Finished t s → ∀ p ∈ housePairs t.numHouse,
    depthSum (narrow s) p = depthSum s p

section
variable {t : Town} {s : St} {x y : Nat}

theorem Inv.narrow_eq (hi : Inv t s) (hd : t.dist x y < 2 ^ 16) (hx : x < t.numHouse)
    (hy : y < t.numHouse) (hxy : x ≠ y) (hs : Seen s x y) :
    metAt (narrow s) x y = metAt s x y := by
  have hle := hi.depth_le_dist hx hy hxy hs
  rw [metAt_narrow, Nat.mod_eq_of_lt (by omega)]

end

/-! ## What `MakeResult` reads -/

section
variable {t : Town} {s : St} (hi : Inv t s) (hf : Finished t s)
  (hd : ∀ x < t.numHouse, ∀ y < t.numHouse, x ≠ y → t.dist x y < 2 ^ 16)
include hi hf hd

/-- After the search both meetings of a pair are stored as they were. -/
theorem metAt_narrow_pair {p : Nat × Nat} (hp : p ∈ housePairs t.numHouse) :
    metAt (narrow s) p.1 p.2 = metAt s p.1 p.2 ∧ metAt (narrow s) p.2 p.1 = metAt s p.2 p.1 := by
  obtain ⟨h1, h2, hne, hs1, hs2⟩ := met_of_finished hi hf hp
  exact ⟨hi.narrow_eq (hd _ h1 _ h2 hne) h1 h2 hne hs1,
    hi.narrow_eq (hd _ h2 _ h1 (Ne.symm hne)) h2 h1 (Ne.symm hne) hs2⟩

theorem depthSum_narrow {p : Nat × Nat} (hp : p ∈ housePairs t.numHouse) :
    depthSum (narrow s) p = depthSum s p := by
  obtain ⟨h1, h2⟩ := metAt_narrow_pair hi hf hd hp
  unfold depthSum
  rw [h1, h2]

theorem minPairs_narrow :
    minSum t (narrow s) = minSum t s ∧ minPairs t (narrow s) = minPairs t s := by
  have hmin : minSum t (narrow s) = minSum t s :=
    List.foldl_ext _ _ _ fun m p hp => by rw [depthSum_narrow hi hf hd hp]
  refine ⟨hmin, List.filter_congr fun p hp => ?_⟩
  rw [depthSum_narrow hi hf hd hp, hmin]

theorem maxPairs_narrow :
    maxSum t (narrow s) = maxSum t s ∧ maxPairs t (narrow s) = maxPairs t s := by
  have hmax : maxSum t (narrow s) = maxSum t s :=
    List.foldl_ext _ _ _ fun m p hp => by rw [depthSum_narrow hi hf hd hp]
  refine ⟨hmax, List.filter_congr fun p hp => ?_⟩
  rw [depthSum_narrow hi hf hd hp, hmax]

/-- The loops end as they do with the true depths. -/
theorem breaks_narrow : ∀ ps ⊆ housePairs t.numHouse,
    minBreaks (narrow s) ps = minBreaks s ps ∧ maxBreaks (narrow s) ps = maxBreaks s ps := by
  intro ps
  induction ps with
  | nil => intro _; exact ⟨rfl, rfl⟩
  | cons p ps ih =>
    intro hps
    obtain ⟨hp, hps⟩ := List.cons_subset.mp hps
    obtain ⟨h1, h2⟩ := ih hps
    obtain ⟨i, j⟩ := p
    obtain ⟨hij, hji⟩ : metAt (narrow s) i j = metAt s i j ∧ metAt (narrow s) j i = metAt s j i :=
      metAt_narrow_pair hi hf hd hp
    have hfinds : ∀ x d v, ((narrow s).finder x).finds d v = (s.finder x).finds d v :=
      fun _ _ _ => rfl
    simp only [minBreaks, maxBreaks, hij, hji, h1, h2, hfinds, and_self]

theorem makeResult_narrow : makeResult t (narrow s) = makeResult t s := by
  obtain ⟨hmin, hminPairs⟩ := minPairs_narrow hi hf hd
  obtain ⟨hmax, hmaxPairs⟩ := maxPairs_narrow hi hf hd
  unfold makeResult
  rw [hmin, hminPairs, hmax, hmaxPairs, (breaks_narrow hi hf hd _ (minPairs_subset t s)).1,
    (breaks_narrow hi hf hd _ (maxPairs_subset t s)).2]

end

section
variable {t : Town} {x y : Nat}

/-- Alone, a thread comes to the house of `y` from a vertex one step before it. -/
theorem meets_alone (hl : t.Linked) (hx : x < t.numHouse) (hy : y < t.numHouse) (hxy : x ≠ y) :
    ∃ s s', (machine t).Reachable s ∧ step t s x = some s' ∧ ¬Seen s x y ∧ Seen s' x y ∧
      (s.finder x).currDepth + 1 = t.dist x y := by
  obtain ⟨u, ⟨as, hr⟩, -, hmet⟩ := runs_alone hl hx
  obtain ⟨hsu, hdist⟩ := hmet y hy hxy
  have hstart : ¬Seen (machine t).init x y := by
    intro hs
    have hb : (FLAG x).getLsbD y = true := hs
    rw [getLsbD_FLAG] at hb
    simp only [Bool.and_eq_true, decide_eq_true_eq] at hb
    exact hxy hb.2
  obtain ⟨bs, z, cs, s, s', hb, hn, hs, hseen, hc⟩ :=
    (machine t).enters (fun s => Seen s x y) as _ u hstart hsu hr
  -- the thread that meets `y` in this step is `x`
  obtain rfl : x = z := by
    by_contra hxz
    exact hn ((seen_of_ne hs hxz).mp hseen)
  refine ⟨s, s', ⟨bs, hb⟩, hs, hn, hseen, ?_⟩
  obtain ⟨v, -, -, hrec⟩ := (records_step hs hy).first hn hseen
  rw [← hdist, (met_stays hy hseen hc).2, hrec]

end

/-- The depths are stored without loss in every schedule iff every two houses are less than
`2 ^ 16` apart. -/
theorem depths_exact_iff (t : Town) (hl : t.Linked) :
    (StoredExact t ∧ SumsExact t) ↔
      ∀ x < t.numHouse, ∀ y < t.numHouse, x ≠ y → t.dist x y < 2 ^ 16 := by
  constructor
  · rintro ⟨hexact, -⟩ x hx y hy hxy
    obtain ⟨s, s', hr, hs, hn, hseen, hdist⟩ := meets_alone hl hx hy hxy
    have hstored := hexact s x s' y [] s' hr hs hy hn hseen rfl
    rw [metAt_narrow, hdist] at hstored
    rw [← hstored]
    exact Nat.mod_lt _ (by decide)
  · intro hd
    refine ⟨fun s x s' y as u hr hs hy hn hseen hu => ?_, fun s hr hf p hp =>
      depthSum_narrow (inv_of_reachable hr) hf hd hp⟩
    have hx := (step_cases hs).1
    have hxy : x ≠ y := by
      rintro rfl
      exact hn ((inv_of_reachable hr).own x hx)
    obtain ⟨hsu, hmet⟩ := met_stays hy hseen hu
    have hiu := inv_of_reachable ((hr.step _ hs).runFrom _ hu)
    obtain ⟨v, -, -, hrec⟩ := (records_step hs hy).first hn hseen
    rw [hiu.narrow_eq (hd x hx y hy hxy) hx hy hxy hsu, hmet, hrec]

theorem depths_exact_iff_pair : pairTown.Linked ∧ StoredExact pairTown ∧ SumsExact pairTown := by
  have hl := Town.linked_of_two rfl pairTown_adj
  refine ⟨hl, (depths_exact_iff pairTown hl).mpr fun x hx y hy hxy => ?_⟩
  have hone : pairTown.dist x y = 1 := by
    have hx' : x < 2 := hx
    have hy' : y < 2 := hy
    obtain ⟨rfl, rfl⟩ | ⟨rfl, rfl⟩ : (x = 0 ∧ y = 1) ∨ (x = 1 ∧ y = 0) := by omega
    · exact SimpleGraph.dist_eq_one_iff_adj.mpr pairTown_adj
    · exact SimpleGraph.dist_eq_one_iff_adj.mpr pairTown_adj.symm
  rw [hone]
  decide

/-! ## A long path -/

/-- The rows of the path `1 - 2 - .. - (n + 1)`. -/
def pathRows (n : Nat) : List (Nat × List Nat) := (List.range n).map fun k => (k + 1, [k + 2])

theorem mem_pathRows {n : Nat} {row : Nat × List Nat} :
    row ∈ pathRows n ↔ ∃ k < n, row = (k + 1, [k + 2]) := by
  unfold pathRows
  simp only [List.mem_map, List.mem_range, eq_comm]

theorem incidences_pathRows (v n : Nat) : House.incidences (pathRows n) v =
    (if 1 ≤ v ∧ v ≤ n then 1 else 0) + (if 2 ≤ v ∧ v ≤ n + 1 then 1 else 0) := by
  induction n with
  | zero =>
    rw [if_neg (by omega), if_neg (by omega)]
    rfl
  | succ n ih =>
    unfold House.incidences at ih ⊢
    unfold pathRows at ih ⊢
    rw [List.range_succ, List.map_append, List.map_append, List.sum_append, ih]
    simp only [List.map_cons, List.map_nil, List.sum_cons, List.sum_nil, List.length_singleton,
      List.count_singleton, beq_iff_eq]
    split_ifs <;> omega

theorem pathRows_fits {n : Nat} (hn : n < MAX_VERTICES) :
    House.Fits [1, n + 1] (n + 1) (pathRows n) := by
  unfold MAX_VERTICES at hn
  refine ⟨by simp [House.MAX_HOUSE], fun h hh => ?_, ?_, fun row hrow => ?_, fun v _ => ?_⟩
  · simp only [List.mem_cons, List.not_mem_nil, or_false] at hh
    omega
  · unfold House.INT_MAX
    omega
  · obtain ⟨k, hk, rfl⟩ := mem_pathRows.mp hrow
    refine ⟨⟨by show 1 ≤ k + 1; omega, by show k + 1 ≤ n + 1; omega⟩, fun w hw => ?_⟩
    rw [List.mem_singleton.mp hw]
    omega
  · rw [incidences_pathRows, House.MAX_EDGES_PER_VERTEX]
    split_ifs <;> omega

/-- The path with the houses at its ends. -/
def pathTown (n : Nat) (h : 1 ≤ n ∧ n < MAX_VERTICES) : Town where
  toProblem := .ofFits [1, n + 1] (n + 1) (pathRows n) (pathRows_fits h.2)
  vertices_le := h.2
  houses_nodup := by
    show [1, n + 1].Nodup
    have hne : 1 ≠ n + 1 := by have := h.1; omega
    simpa using hne

section
variable {n : Nat} {h : 1 ≤ n ∧ n < MAX_VERTICES}

theorem pathTown_adj {u v : Nat} (ha : (pathTown n h).graph.Adj u v) : v ≤ u + 1 := by
  rw [House.Problem.graph, SimpleGraph.fromRel_adj] at ha
  rcases ha.2 with ⟨row, hrow, h1, h2⟩ | ⟨row, hrow, h1, h2⟩
  · obtain ⟨k, -, rfl⟩ := mem_pathRows.mp hrow
    rw [List.mem_singleton.mp h2, ← h1]
  · obtain ⟨k, -, rfl⟩ := mem_pathRows.mp hrow
    rw [List.mem_singleton.mp h2, ← h1]
    show k + 1 ≤ k + 2 + 1
    omega

/-- The vertices of the path are as far from its start as they are named. -/
theorem pathTown_at : ∀ k ≤ n, At (pathTown n h).graph 1 k (k + 1) := by
  have hge : ∀ d v, At (pathTown n h).graph 1 d v → v ≤ d + 1 := by
    intro d
    induction d with
    | zero => intro v hv; rw [← at_zero.mp hv]
    | succ d ih =>
      intro v hv
      obtain ⟨u, hu, ha⟩ := hv.pred
      have h1 := ih u hu
      have h2 := pathTown_adj ha
      omega
  intro k
  induction k with
  | zero => intro _; exact at_zero.mpr rfl
  | succ k ih =>
    intro hk
    have ha : (pathTown n h).graph.Adj (k + 1) (k + 1 + 1) := by
      rw [House.Problem.graph, SimpleGraph.fromRel_adj]
      exact ⟨by omega, Or.inl ⟨_, mem_pathRows.mpr ⟨k, hk, rfl⟩, rfl, List.mem_singleton.mpr rfl⟩⟩
    obtain ⟨e, he, hle, -⟩ := (ih (by omega)).adj ha
    have := hge e _ he
    obtain rfl : e = k + 1 := by omega
    exact he

theorem pathTown_linked : (pathTown n h).Linked :=
  Town.linked_of_reachable rfl (at_iff.mp (pathTown_at n (Nat.le_refl n))).1

theorem pathTown_dist : (pathTown n h).dist 0 1 = n :=
  (at_iff.mp (pathTown_at n (Nat.le_refl n))).2

end

theorem longTown_size : 1 ≤ 65536 ∧ 65536 < MAX_VERTICES := by decide

/-- The path of `2 ^ 16` edges. -/
def longTown : Town := pathTown 65536 longTown_size

/-- Thread 0 alone comes to the other end of the path at depth 65536, which is stored as 0. -/
theorem long_path_wraps : longTown.Linked ∧ ∃ s s', (machine longTown).Reachable s ∧
    step longTown s 0 = some s' ∧ ¬Seen s 0 1 ∧ Seen s' 0 1 ∧
    (s.finder 0).currDepth + 1 = 65536 ∧ (metAt (narrow s') 0 1).depth = 0 := by
  have h1 : 1 < longTown.numHouse := show 1 < 2 by decide
  obtain ⟨s, s', hr, hs, hnot, hseen, hdepth⟩ :=
    meets_alone (t := longTown) pathTown_linked (Nat.lt_of_succ_lt h1) h1 (by decide)
  rw [show longTown.dist 0 1 = 65536 from pathTown_dist] at hdepth
  refine ⟨pathTown_linked, s, s', hr, hs, hnot, hseen, hdepth, ?_⟩
  obtain ⟨v, -, -, hrec⟩ := (records_step hs h1).first hnot hseen
  rw [metAt_narrow, hrec, hdepth]
  exact Nat.mod_self 65536

end MulticorePrac.Meet
