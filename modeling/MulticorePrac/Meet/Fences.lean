import MulticorePrac.Meet.Narrow

/-!
# Lab4: the fences that `MakeResult` reads

`MakeResult` looks for the vertex of a meeting between two entries of
`g_depth_fence_in_queue`: `depth` and `depth + 1` for the pairs with the smallest sum,
`depth - 1` and `depth` for those with the largest.  Between the entries `d` and `d + 1`
stand the vertices of level `d`.  But a thread ends at the first fence after its last
meeting, so there is no entry after the depth of that meeting: the indices for the
smallest sum are right only if both threads met a third one deeper (`fences_fit_iff`),
and with two houses they never are (`pair_reads_past_end`).

The loop over the pairs with the smallest sum is left at the first pair with a vertex that
it does not find, and reads no entry for the pairs after that one.  `ReadsFit` is what it
needs up to there, and `MakeResult` gets to its end iff it holds.
-/

namespace MulticorePrac.Meet

/-- The indices for a pair with the smallest sum, with the thread whose fences are read. -/
def minIndices (s : St) (p : Nat × Nat) : List (Nat × Int) :=
  let thd1Depth : Int := (metAt s p.1 p.2).depth
  let thd2Depth : Int := (metAt s p.2 p.1).depth
  [(p.2, thd2Depth), (p.2, thd2Depth + 1), (p.1, thd1Depth), (p.1, thd1Depth + 1)]

/-- The indices for a pair with the largest sum. -/
def maxIndices (s : St) (p : Nat × Nat) : List (Nat × Int) :=
  let thd1Depth : Int := (metAt s p.1 p.2).depth
  let thd2Depth : Int := (metAt s p.2 p.1).depth
  [(p.2, thd2Depth - 1), (p.2, thd2Depth), (p.1, thd1Depth - 1), (p.1, thd1Depth)]

/-- An index is one of an entry. -/
def InFences (s : St) (e : Nat × Int) : Prop := 0 ≤ e.2 ∧ e.2 < (s.finder e.1).fences.length

/-- All indices of the candidate pairs are those of entries. -/
def IndicesFit (t : Town) (s : St) : Prop :=
  (∀ p ∈ minPairs t s, ∀ e ∈ minIndices s p, InFences s e) ∧
    ∀ p ∈ maxPairs t s, ∀ e ∈ maxIndices s p, InFences s e

/-- Thread `x` met another thread deeper than it met `y`. -/
def Deeper (t : Town) (s : St) (x y : Nat) : Prop :=
  ∃ z < t.numHouse, z ≠ x ∧ (metAt s x y).depth < (metAt s x z).depth

/-- The loop over the pairs with the smallest sum finds both vertices of the pair, and goes on. -/
def GoesOn (t : Town) (s : St) (p : Nat × Nat) : Prop :=
  (metAt s p.1 p.2).vid ∈ t.bfsLevel p.2 (metAt s p.2 p.1).depth ∧
    (metAt s p.2 p.1).vid ∈ t.bfsLevel p.1 (metAt s p.1 p.2).depth

/-- The entries that the loop reads for the pair are there: those of the second thread, and those of
the first one if it gets to them. -/
def PairFits (t : Town) (s : St) (p : Nat × Nat) : Prop :=
  Deeper t s p.2 p.1 ∧
    ((metAt s p.1 p.2).vid ∈ t.bfsLevel p.2 (metAt s p.2 p.1).depth → Deeper t s p.1 p.2)

/-- The entries that the loop reads up to its first `break` are there. -/
def ReadsFit (t : Town) (s : St) (ps : List (Nat × Nat)) : Prop :=
  ∀ l p r, ps = l ++ p :: r → (∀ q ∈ l, GoesOn t s q) → PairFits t s p

/-- Between the entries `d` and `d + 1` stand the fence before level `d` and its vertices. -/
def LevelBetween (t : Town) (s : St) (x d : Nat) : Prop :=
  ∀ first last, (s.finder x).fences[d]? = some first → (s.finder x).fences[d + 1]? = some last →
    ∃ l, ((s.finder x).queue.drop first).take (last - first) = fenceBefore d ++ l ∧
      ∀ v, v ∈ l ↔ At t.graph (t.houseOf x) d v

section
variable {t : Town} {s : St} {x y : Nat}

theorem length_fences (hi : Inv t s) (hx : x < t.numHouse) :
    (s.finder x).fences.length = (s.finder x).currDepth + 1 := by
  obtain ⟨_, _, h⟩ := hi.searching x hx
  rw [h.fences, List.length_map, List.length_range]

theorem levelBetween (hi : Inv t s) (hx : x < t.numHouse) (d : Nat) : LevelBetween t s x d := by
  intro first last hfirst hlast
  have hd : d < (s.finder x).currDepth := by
    obtain ⟨hlt, -⟩ := List.getElem?_eq_some_iff.mp hlast
    rw [length_fences hi hx] at hlt
    omega
  obtain ⟨_, _, h⟩ := hi.searching x hx
  rw [h.fence_get (Nat.le_of_lt hd)] at hfirst
  rw [h.fence_get hd] at hlast
  cases hfirst
  cases hlast
  exact ⟨_, h.between hx hd, fun v => t.mem_bfsLevel⟩

/-- The depth at which a thread ended is that of its deepest meeting. -/
theorem lt_depth_iff (hs : (machine t).Reachable s) (hf : Finished t s) (hx : x < t.numHouse)
    (hy : y < t.numHouse) (hxy : x ≠ y) :
    (metAt s x y).depth < (s.finder x).currDepth ↔ Deeper t s x y := by
  have hi := inv_of_reachable hs
  have hall := (hi.seen_all hx).mp (hi.done x hx (hf x hx))
  constructor
  · intro hlt
    obtain ⟨d, hdepth, h0 | ⟨z, hz, hzx, hp⟩⟩ := (lastMet_of_reachable hs hx).ended (hf x hx)
    · have := (hi.met x hx y hy hxy (hall y hy)).pos
      omega
    · exact ⟨z, hz, hzx, by rw [hp (hall z hz)]; omega⟩
  · rintro ⟨z, hz, hzx, hlt⟩
    have := hi.depth_done hx hz (Ne.symm hzx) (hall z hz) (hf x hx)
    omega

/-! ## The loops stay within the entries -/

theorem Finder.finds_isSome {f : Finder} {d : Nat} (h : d + 1 < f.fences.length) (v : Nat) :
    ∃ b, f.finds d v = some b := by
  unfold Finder.finds
  rw [List.getElem?_eq_getElem h, List.getElem?_eq_getElem (Nat.lt_of_succ_lt h)]
  exact ⟨_, rfl⟩

theorem minBreaks_isSome : ∀ ps : List (Nat × Nat),
    (∀ p ∈ ps, ∀ e ∈ minIndices s p, InFences s e) → ∃ b, minBreaks s ps = some b := by
  intro ps
  induction ps with
  | nil => intro _; exact ⟨false, rfl⟩
  | cons p ps ih =>
    intro h
    obtain ⟨i, j⟩ := p
    obtain ⟨b, hb⟩ := ih fun q hq => h q (List.mem_cons_of_mem _ hq)
    have hp := h (i, j) List.mem_cons_self
    simp only [minIndices, InFences, List.forall_mem_cons] at hp
    obtain ⟨b1, hb1⟩ := (s.finder j).finds_isSome (d := (metAt s j i).depth) (by omega)
      (metAt s i j).vid
    obtain ⟨b2, hb2⟩ := (s.finder i).finds_isSome (d := (metAt s i j).depth) (by omega)
      (metAt s j i).vid
    rw [minBreaks, hb1, hb2]
    cases b1 with
    | false => exact ⟨true, rfl⟩
    | true =>
      cases b2 with
      | false => exact ⟨true, rfl⟩
      | true => exact ⟨b, hb⟩

theorem maxBreaks_isSome : ∀ ps : List (Nat × Nat),
    (∀ p ∈ ps, ∀ e ∈ maxIndices s p, InFences s e) → ∃ b, maxBreaks s ps = some b := by
  intro ps
  induction ps with
  | nil => intro _; exact ⟨false, rfl⟩
  | cons p ps ih =>
    intro h
    obtain ⟨i, j⟩ := p
    obtain ⟨b, hb⟩ := ih fun q hq => h q (List.mem_cons_of_mem _ hq)
    have hp := h (i, j) List.mem_cons_self
    simp only [maxIndices, InFences, List.forall_mem_cons] at hp
    obtain ⟨b1, hb1⟩ := (s.finder j).finds_isSome (d := (metAt s j i).depth - 1) (by omega)
      (metAt s i j).vid
    obtain ⟨b2, hb2⟩ := (s.finder i).finds_isSome (d := (metAt s i j).depth - 1) (by omega)
      (metAt s j i).vid
    rw [maxBreaks, hb1, hb2]
    cases b1 with
    | true => exact ⟨b, hb⟩
    | false =>
      cases b2 with
      | false => exact ⟨true, rfl⟩
      | true => exact ⟨b, hb⟩

theorem makeResult_isSome (h : IndicesFit t s) : (makeResult t s).isSome = true := by
  obtain ⟨b, hb⟩ := minBreaks_isSome _ h.1
  obtain ⟨c, hc⟩ := maxBreaks_isSome _ h.2
  unfold makeResult
  rw [hb, hc]
  rfl

/-! ## One pair -/

/-- A meeting of a thread that has ended, against the entries of its fences. -/
theorem depth_in_fences (hs : (machine t).Reachable s) (hf : Finished t s) (hx : x < t.numHouse)
    (hy : y < t.numHouse) (hxy : x ≠ y) :
    1 ≤ (metAt s x y).depth ∧ (metAt s x y).depth < (s.finder x).fences.length ∧
      ((metAt s x y).depth + 1 < (s.finder x).fences.length ↔ Deeper t s x y) := by
  have hi := inv_of_reachable hs
  have hseen := (hi.seen_all hx).mp (hi.done x hx (hf x hx)) y hy
  have hle := hi.depth_done hx hy hxy hseen (hf x hx)
  refine ⟨(hi.met x hx y hy hxy hseen).pos, ?_, ?_⟩
  · rw [length_fences hi hx]
    omega
  · rw [length_fences hi hx, ← lt_depth_iff hs hf hx hy hxy]
    omega

variable {p : Nat × Nat}

theorem minIndices_fit_iff (hs : (machine t).Reachable s) (hf : Finished t s)
    (hp : p ∈ housePairs t.numHouse) : (∀ e ∈ minIndices s p, InFences s e) ↔
      Deeper t s p.1 p.2 ∧ Deeper t s p.2 p.1 := by
  obtain ⟨h1, h2, hne, -, -⟩ := met_of_finished (inv_of_reachable hs) hf hp
  obtain ⟨-, hlt1, hiff1⟩ := depth_in_fences hs hf h1 h2 hne
  obtain ⟨-, hlt2, hiff2⟩ := depth_in_fences hs hf h2 h1 (Ne.symm hne)
  rw [← hiff1, ← hiff2]
  simp only [minIndices, InFences, List.forall_mem_cons, List.not_mem_nil, false_implies,
    implies_true, and_true]
  omega

theorem maxIndices_fit (hs : (machine t).Reachable s) (hf : Finished t s)
    (hp : p ∈ housePairs t.numHouse) : ∀ e ∈ maxIndices s p, InFences s e := by
  obtain ⟨h1, h2, hne, -, -⟩ := met_of_finished (inv_of_reachable hs) hf hp
  obtain ⟨hpos1, hlt1, -⟩ := depth_in_fences hs hf h1 h2 hne
  obtain ⟨hpos2, hlt2, -⟩ := depth_in_fences hs hf h2 h1 (Ne.symm hne)
  simp only [maxIndices, InFences, List.forall_mem_cons, List.not_mem_nil, false_implies,
    implies_true, and_true]
  omega

/-- The stored depths of a pair are the true ones. -/
theorem indices_narrow (hs : (machine t).Reachable s) (hf : Finished t s)
    (hd : ∀ x < t.numHouse, ∀ y < t.numHouse, x ≠ y → t.dist x y < 2 ^ 16)
    (hp : p ∈ housePairs t.numHouse) :
    minIndices (narrow s) p = minIndices s p ∧ maxIndices (narrow s) p = maxIndices s p := by
  obtain ⟨h1, h2⟩ := metAt_narrow_pair (inv_of_reachable hs) hf hd hp
  unfold minIndices maxIndices
  rw [h1, h2]
  exact ⟨rfl, rfl⟩

/-! ## Up to the first break -/

theorem readsFit_cons {ps : List (Nat × Nat)} :
    ReadsFit t s (p :: ps) ↔ PairFits t s p ∧ (GoesOn t s p → ReadsFit t s ps) := by
  constructor
  · intro h
    refine ⟨h [] p ps rfl (fun q hq => by cases hq), fun hp l q r he hl => ?_⟩
    exact h (p :: l) q r (by rw [he]; rfl) (List.forall_mem_cons.mpr ⟨hp, hl⟩)
  · rintro ⟨hp, hps⟩ l q r he hl
    cases l with
    | nil =>
      cases he
      exact hp
    | cons p' l =>
      cases he
      obtain ⟨hgo, hl⟩ := List.forall_mem_cons.mp hl
      exact hps hgo l q r rfl hl

/-- The search for a vertex in the level of a meeting: there is an entry after it iff the thread met
someone deeper. -/
theorem finds_of_deeper (hs : (machine t).Reachable s) (hf : Finished t s) (hx : x < t.numHouse)
    (hy : y < t.numHouse) (hxy : x ≠ y) (hdeep : Deeper t s x y) {v : Nat} (hv : v < MAX_DEPTH) :
    (s.finder x).finds (metAt s x y).depth v =
      some (decide (v ∈ t.bfsLevel x (metAt s x y).depth)) := by
  obtain ⟨_, _, h⟩ := (inv_of_reachable hs).searching x hx
  exact h.finds hx ((lt_depth_iff hs hf hx hy hxy).mpr hdeep) hv

theorem finds_of_not_deeper (hs : (machine t).Reachable s) (hf : Finished t s)
    (hx : x < t.numHouse) (hy : y < t.numHouse) (hxy : x ≠ y) (hn : ¬Deeper t s x y) (v : Nat) :
    (s.finder x).finds (metAt s x y).depth v = none := by
  obtain ⟨-, hlt, hiff⟩ := depth_in_fences hs hf hx hy hxy
  have hlen := mt hiff.mp hn
  unfold Finder.finds
  rw [List.getElem?_eq_getElem hlt, List.getElem?_eq_none (Nat.not_lt.mp hlen)]
  rfl

theorem minBreaks_isSome_iff (hs : (machine t).Reachable s) (hf : Finished t s) :
    ∀ ps ⊆ housePairs t.numHouse, ((minBreaks s ps).isSome = true ↔ ReadsFit t s ps) := by
  have hi := inv_of_reachable hs
  intro ps
  induction ps with
  | nil =>
    refine fun _ => ⟨fun _ l p r he => ?_, fun _ => rfl⟩
    exact absurd he.symm (by simp)
  | cons p ps ih =>
    intro hps
    obtain ⟨hp, hps⟩ := List.cons_subset.mp hps
    rw [readsFit_cons, ← ih hps]
    obtain ⟨i, j⟩ := p
    obtain ⟨hi', hj, hij, hsi, hsj⟩ : i < t.numHouse ∧ j < t.numHouse ∧ i ≠ j ∧ Seen s i j ∧
      Seen s j i := met_of_finished hi hf hp
    have hji := Ne.symm hij
    have hvi := hi.vid_lt hi' hj hij hsi
    have hvj := hi.vid_lt hj hi' hji hsj
    unfold PairFits GoesOn
    rw [minBreaks]
    by_cases hdj : Deeper t s j i
    · rw [finds_of_deeper hs hf hj hi' hji hdj hvi]
      by_cases hmi : (metAt s i j).vid ∈ t.bfsLevel j (metAt s j i).depth
      · by_cases hdi : Deeper t s i j
        · rw [finds_of_deeper hs hf hi' hj hij hdi hvj]
          by_cases hmj : (metAt s j i).vid ∈ t.bfsLevel i (metAt s i j).depth
          · simp [hdj, hdi, hmi, hmj]
          · simp [hdj, hdi, hmi, hmj]
        · rw [finds_of_not_deeper hs hf hi' hj hij hdi]
          simp [hdi, hmi]
      · simp [hdj, hmi]
    · rw [finds_of_not_deeper hs hf hj hi' hji hdj]
      simp [hdj]

theorem makeResult_isSome_iff (hs : (machine t).Reachable s) (hf : Finished t s) :
    (makeResult t s).isSome = true ↔ ReadsFit t s (minPairs t s) := by
  obtain ⟨c, hc⟩ := maxBreaks_isSome (s := s) (maxPairs t s) fun p hp =>
    maxIndices_fit hs hf (maxPairs_subset t s hp)
  rw [← minBreaks_isSome_iff hs hf _ (minPairs_subset t s)]
  unfold makeResult
  rw [hc]
  cases minBreaks s (minPairs t s) with
  | none => exact Iff.rfl
  | some b => exact Iff.rfl

end

/-! ## The theorem -/

/-- When all threads have ended and no two houses are `2 ^ 16` apart, the indices of the candidate
pairs are within the fences iff both threads of every pair with the smallest sum met a third one
deeper than each other; `MakeResult` then gets to its end.  It gets there iff this holds as far as
the loop over those pairs goes.  Between two entries there is always a level. -/
theorem fences_fit_iff (t : Town)
    (hd : ∀ x < t.numHouse, ∀ y < t.numHouse, x ≠ y → t.dist x y < 2 ^ 16)
    (s : St) (hs : (machine t).Reachable s) (hf : Finished t s) :
    (IndicesFit t (narrow s) ↔
      ∀ p ∈ minPairs t (narrow s), Deeper t s p.1 p.2 ∧ Deeper t s p.2 p.1) ∧
    (IndicesFit t (narrow s) → (makeResult t (narrow s)).isSome = true) ∧
    ((makeResult t (narrow s)).isSome = true ↔ ReadsFit t s (minPairs t (narrow s))) ∧
    ∀ x < t.numHouse, ∀ d, LevelBetween t s x d := by
  have hi := inv_of_reachable hs
  refine ⟨?_, makeResult_isSome, ?_, fun x hx d => levelBetween hi hx d⟩
  · have hmin : ∀ p ∈ minPairs t (narrow s),
        (∀ e ∈ minIndices (narrow s) p, InFences (narrow s) e) ↔
          Deeper t s p.1 p.2 ∧ Deeper t s p.2 p.1 := by
      intro p hp
      have hp' := minPairs_subset t _ hp
      rw [(indices_narrow hs hf hd hp').1]
      exact minIndices_fit_iff hs hf hp'
    have hmax : ∀ p ∈ maxPairs t (narrow s),
        ∀ e ∈ maxIndices (narrow s) p, InFences (narrow s) e := by
      intro p hp
      have hp' := maxPairs_subset t _ hp
      rw [(indices_narrow hs hf hd hp').2]
      exact maxIndices_fit hs hf hp'
    exact ⟨fun h p hp => (hmin p hp).mp (h.1 p hp),
      fun h => ⟨fun p hp => (hmin p hp).mpr (h p hp), hmax⟩⟩
  · rw [makeResult_narrow hi hf hd, (minPairs_narrow hi hf hd).2]
    exact makeResult_isSome_iff hs hf

/-- Two neighbouring houses and a third one three steps away. -/
def chainTown : Town where
  toProblem := .ofFits [1, 2, 5] 5 [(1, [2]), (2, [3]), (3, [4]), (4, [5])] (by decide)
  vertices_le := by decide
  houses_nodup := by decide

theorem chainTown_dist (x : Nat) (hx : x < chainTown.numHouse) (y : Nat) :
    chainTown.dist x y < 2 ^ 16 := by
  unfold Town.dist
  by_cases hr : chainTown.graph.Reachable (chainTown.houseOf x) (chainTown.houseOf y)
  · have hlt : _ < 5 := chainTown.at_lt (chainTown.house_range hx) (at_dist hr)
    omega
  · rw [SimpleGraph.dist_eq_zero_of_not_reachable hr]
    decide

/-- One thread after the other: the first two meet each other at depth 1 and the third deeper. -/
def chainRun : List Nat := List.replicate 23 0 ++ List.replicate 22 1 ++ List.replicate 5 2

theorem chainRun_ends : ∃ s, (machine chainTown).run chainRun = some s ∧ Finished chainTown s ∧
    minPairs chainTown (narrow s) = [(0, 1)] ∧ Deeper chainTown s 0 1 ∧ Deeper chainTown s 1 0 := by
  have hs : ((machine chainTown).run chainRun).any (fun s => decide (
        ((s.finder 0).pc = .done ∧ (s.finder 1).pc = .done ∧ (s.finder 2).pc = .done) ∧
        minPairs chainTown (narrow s) = [(0, 1)] ∧ (metAt s 0 1).depth < (metAt s 0 2).depth ∧
        (metAt s 1 0).depth < (metAt s 1 2).depth)) = true := by
    decide +kernel
  obtain ⟨s, hr, h⟩ := (Option.any_eq_true _ _).mp hs
  obtain ⟨⟨h0, h1, h2⟩, hmin, hd0, hd1⟩ := of_decide_eq_true h
  refine ⟨s, hr, fun x hx => ?_, hmin, ⟨2, by decide, by decide, hd0⟩, ⟨2, by decide, by decide, hd1⟩⟩
  have hx' : x < 3 := hx
  obtain rfl | rfl | rfl : x = 0 ∨ x = 1 ∨ x = 2 := by omega
  · exact h0
  · exact h1
  · exact h2

theorem fences_fit_chain : ∃ s, (machine chainTown).run chainRun = some s ∧
    Finished chainTown s ∧ minPairs chainTown (narrow s) = [(0, 1)] ∧
    IndicesFit chainTown (narrow s) := by
  obtain ⟨s, hr, hf, hmin, h01, h10⟩ := chainRun_ends
  refine ⟨s, hr, hf, hmin, (fences_fit_iff chainTown (fun x hx y _ _ => chainTown_dist x hx y) s
    ⟨_, hr⟩ hf).1.mpr fun p hp => ?_⟩
  rw [hmin] at hp
  rw [List.mem_singleton.mp hp]
  exact ⟨h01, h10⟩

/-- With two houses each thread ends at the only meeting: the index `depth + 1` is the length of
the fence vector, and `MakeResult` reads past its end. -/
theorem pair_reads_past_end : pairTown.Linked ∧ ∃ s,
    (machine pairTown).run (List.replicate 5 0 ++ List.replicate 5 1) = some s ∧
      Finished pairTown s ∧ minPairs pairTown (narrow s) = [(0, 1)] ∧
      (metAt (narrow s) 1 0).depth + 1 = (s.finder 1).fences.length ∧
      makeResult pairTown (narrow s) = none := by
  have hs : ((machine pairTown).run (List.replicate 5 0 ++ List.replicate 5 1)).any
      (fun s => decide (((s.finder 0).pc = .done ∧ (s.finder 1).pc = .done) ∧
        minPairs pairTown (narrow s) = [(0, 1)] ∧
        (metAt (narrow s) 1 0).depth + 1 = (s.finder 1).fences.length ∧
        makeResult pairTown (narrow s) = none)) = true := by
    decide +kernel
  obtain ⟨s, hr, h⟩ := (Option.any_eq_true _ _).mp hs
  obtain ⟨⟨h0, h1⟩, hrest⟩ := of_decide_eq_true h
  refine ⟨Town.linked_of_two rfl pairTown_adj, s, hr, fun x hx => ?_, hrest⟩
  have hx' : x < 2 := hx
  obtain rfl | rfl : x = 0 ∨ x = 1 := by omega
  · exact h0
  · exact h1

end MulticorePrac.Meet
