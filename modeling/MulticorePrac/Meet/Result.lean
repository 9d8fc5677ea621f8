import MulticorePrac.Meet.Fences

/-!
# Lab4: what `MakeResult` decides

The rule of the comment and the two loops, on what the search leaves behind: the depths in
16 bits (`narrow`) and the fences of the threads, which have ended.  On an input with
`FirstOnPath` on which no two houses are `2 ^ 16` apart, the rule gives the distance of
every two houses in every run, and `max` is lowered iff the rule says so.  For `min` this
holds in the runs without overruns after which the entries are there that the loop reads
(`meetings_classified`).

The rule is wrong when a thread first meets the other one off every shortest path although
the two levels touch (`crossing_misclassified`).

The conditions are about distances; `Town.levelOf` reads these off the levels, so that they
can be evaluated on an input and along a run.
-/

namespace MulticorePrac.Meet

/-! ## The theorem -/

/-- On an input with `FirstOnPath` and without houses `2 ^ 16` apart, in every run: the rule gives
the distance of every two houses whose threads have met each other; `max` is lowered iff the rule
lowers all pairs with the largest sum; and, if no step was an overrun and both threads of every pair
with the smallest sum met a third one deeper than each other, `min` is lowered iff the rule lowers
one of these pairs. -/
theorem meetings_classified (t : Town) (hl : t.Linked) (hc : t.FirstOnPath)
    (hd : ∀ x < t.numHouse, ∀ y < t.numHouse, x ≠ y → t.dist x y < 2 ^ 16) (as : List Nat)
    (s : St) (hr : (machine t).run as = some s) :
    (∀ x < t.numHouse, ∀ y < t.numHouse, x ≠ y → Seen s x y → Seen s y x →
      t.dist x y = classify t (narrow s) x y) ∧
    (Finished t s → ∃ b, maxBreaks (narrow s) (maxPairs t (narrow s)) = some b ∧
      (b = false ↔ ∀ p ∈ maxPairs t (narrow s),
        classify t (narrow s) p.1 p.2 + 1 = depthSum (narrow s) p)) ∧
    ((machine t).AllSteps (NoOverrun t) (machine t).init as → Finished t s →
      (∀ p ∈ minPairs t (narrow s), Deeper t s p.1 p.2 ∧ Deeper t s p.2 p.1) →
      ∃ b, minBreaks (narrow s) (minPairs t (narrow s)) = some b ∧
        (b = true ↔ ∃ p ∈ minPairs t (narrow s),
          classify t (narrow s) p.1 p.2 + 1 = depthSum (narrow s) p)) := by
  have hreach : (machine t).Reachable s := ⟨as, hr⟩
  have hi := inv_of_reachable hreach
  have hrule : ∀ x < t.numHouse, ∀ y < t.numHouse, x ≠ y → Seen s x y → Seen s y x →
      t.dist x y = classify t (narrow s) x y := by
    intro x hx y hy hxy h1 h2
    rw [hi.classify_eq hl hc hx hy hxy h1 h2]
    unfold classify
    rw [hi.narrow_eq (hd x hx y hy hxy) hx hy hxy h1,
      hi.narrow_eq (hd y hy x hx (Ne.symm hxy)) hy hx (Ne.symm hxy) h2]
  refine ⟨hrule, fun hf => ?_, fun hn hf hdeep => ?_⟩
  · rw [(maxPairs_narrow hi hf hd).2, (breaks_narrow hi hf hd _ (maxPairs_subset t s)).2]
    have hmet := fun p hp => met_of_finished hi hf (maxPairs_subset t s (a := p) hp)
    obtain ⟨b, hb, hiff⟩ := maxBreaks_iff hl hc hi hf _ hmet
    refine ⟨b, hb, ?_⟩
    rw [← Bool.not_eq_true, hiff]
    push Not
    refine forall₂_congr fun p hp => ?_
    obtain ⟨h1, h2, hne, hs1, hs2⟩ := hmet p hp
    rw [← hrule _ h1 _ h2 hne hs1 hs2, depthSum_narrow hi hf hd (maxPairs_subset t s hp)]
    have hle := hi.le_depths h1 h2 hne hs1 hs2 (at_dist (hl _ h1 _ h2))
    have hge := hi.depths_le h1 h2 hne hs1 hs2 (at_dist (hl _ h1 _ h2))
    change t.dist p.1 p.2 ≤ depthSum s p at hle
    change depthSum s p ≤ t.dist p.1 p.2 + 1 at hge
    omega
  · rw [(minPairs_narrow hi hf hd).2] at hdeep ⊢
    rw [(breaks_narrow hi hf hd _ (minPairs_subset t s)).1]
    obtain ⟨b, hb⟩ := minBreaks_isSome (s := s) (minPairs t s) fun p hp =>
      (minIndices_fit_iff hreach hf (minPairs_subset t s hp)).mpr (hdeep p hp)
    have hmet := fun p hp => met_of_finished hi hf (minPairs_subset t s (a := p) hp)
    refine ⟨b, hb, ?_⟩
    rw [minBreaks_iff hl hc hi (tight_run hn hr) _ b hmet hb]
    refine exists_congr fun p => and_congr_right fun hp => ?_
    obtain ⟨h1, h2, hne, hs1, hs2⟩ := hmet p hp
    rw [hrule _ h1 _ h2 hne hs1 hs2, depthSum_narrow hi hf hd (minPairs_subset t s hp)]

/-! ## The conditions, evaluated -/

/-- The level of a vertex in the search from the house with index `y`. -/
def Town.levelOf (t : Town) (y v : Nat) : Nat :=
  ((List.range t.numVertices).find? fun e => decide (v ∈ t.bfsLevel y e)).getD 0

/-- `FirstOnPath` with the levels for the distances. -/
def Town.FirstOnLevels (t : Town) : Prop :=
  ∀ x < t.numHouse, ∀ y < t.numHouse, x ≠ y → ∀ d ≤ t.levelOf x (t.houseOf y), 1 ≤ d →
    (((t.bfsLevel x d).find? fun u => d + t.levelOf y u ≤ t.levelOf x (t.houseOf y) + 1).all
      fun u => d + t.levelOf y u = t.levelOf x (t.houseOf y)) = true

instance (t : Town) : Decidable t.FirstOnLevels :=
  inferInstanceAs (Decidable (∀ x < t.numHouse, ∀ y < t.numHouse, _))

/-- The thread meets another one beyond the level at which that one met it. -/
def overruns (t : Town) (s : St) (x : Nat) : Bool :=
  match (s.finder x).pc with
  | .mark v => (List.range t.numHouse).any fun y =>
      Marked s y v ∧ ¬Seen s x y ∧ Seen s y x ∧ (metAt s y x).depth < t.levelOf y v
  | _ => false

section
variable {t : Town} {s : St} {x y : Nat}

theorem Town.levelOf_eq (hy : y < t.numHouse) {e v : Nat} (h : At t.graph (t.houseOf y) e v) :
    t.levelOf y v = e := by
  have hlt : e < t.numVertices := t.at_lt (t.house_range hy) h
  have hsome : ((List.range t.numVertices).find? fun e => decide (v ∈ t.bfsLevel y e)).isSome =
      true := by
    rw [List.find?_isSome]
    exact ⟨e, List.mem_range.mpr hlt, decide_eq_true (t.mem_bfsLevel.mpr h)⟩
  obtain ⟨e', he'⟩ := Option.isSome_iff_exists.mp hsome
  have hmem : v ∈ t.bfsLevel y e' :=
    of_decide_eq_true (List.find?_some (p := fun e => decide (v ∈ t.bfsLevel y e)) he')
  unfold Town.levelOf
  rw [he']
  exact (t.mem_bfsLevel.mp hmem).inj h

theorem Town.linked_of_levels
    (h : ∀ x < t.numHouse, ∀ y < t.numHouse, t.houseOf y ∈ t.bfsLevel x (t.levelOf x (t.houseOf y))) :
    t.Linked :=
  fun x hx y hy => (at_iff.mp (t.mem_bfsLevel.mp (h x hx y hy))).1

theorem Town.firstOnPath_of_levels (hl : t.Linked) (h : t.FirstOnLevels) : t.FirstOnPath := by
  intro x hx y hy hxy d hd hle l u r hlevel hfar hnear
  have hD : t.levelOf x (t.houseOf y) = t.dist x y := t.levelOf_eq hx (at_dist (hl x hx y hy))
  -- the vertices of the level can be reached from `y` too
  have hdist : ∀ w ∈ t.bfsLevel x d, t.levelOf y w = t.graph.dist (t.houseOf y) w := fun w hw =>
    t.levelOf_eq hy (at_dist ((hl y hy x hx).trans (at_iff.mp (t.mem_bfsLevel.mp hw)).1))
  have hu := hdist u (by rw [hlevel]; exact List.mem_append_right l List.mem_cons_self)
  have hfind : ((t.bfsLevel x d).find? fun u =>
      d + t.levelOf y u ≤ t.levelOf x (t.houseOf y) + 1) = some u := by
    rw [List.find?_eq_some_iff_append]
    refine ⟨decide_eq_true (by omega), l, r, hlevel, fun w hw => ?_⟩
    have := hfar w hw
    have hw' := hdist w (by rw [hlevel]; exact List.mem_append_left _ hw)
    rw [Bool.not_eq_true', decide_eq_false_iff_not]
    omega
  have hall := h x hx y hy hxy d (by omega) hd
  rw [hfind] at hall
  have := of_decide_eq_true hall
  omega

theorem noOverrun_of_not_overruns (h : overruns t s x = false) : NoOverrun t s x := by
  intro v hpc y hy hm hnot hseen e he
  unfold overruns at h
  rw [hpc] at h
  have hy' := List.any_eq_false.mp h y (List.mem_range.mpr hy)
  rw [decide_eq_true_iff, t.levelOf_eq hy he] at hy'
  by_contra hlt
  exact hy' ⟨hm, hnot, hseen, Nat.not_le.mp hlt⟩

end

/-- Three houses, one thread after the other: the rule lowers the pair with the smallest sum and the
one with the largest, and the printed numbers are the distances 1 and 4. -/
theorem meetings_classified_chain : chainTown.FirstOnPath ∧
    (machine chainTown).AllSteps (NoOverrun chainTown) (machine chainTown).init chainRun ∧
    ∃ s, (machine chainTown).run chainRun = some s ∧ Finished chainTown s ∧
      chainTown.dist 0 1 = classify chainTown (narrow s) 0 1 ∧
      (minPairs chainTown (narrow s) = [(0, 1)] ∧
        classify chainTown (narrow s) 0 1 + 1 = depthSum (narrow s) (0, 1)) ∧
      (maxPairs chainTown (narrow s) = [(0, 2)] ∧
        classify chainTown (narrow s) 0 2 + 1 = depthSum (narrow s) (0, 2)) ∧
      makeResult chainTown (narrow s) = some (1, 4) := by
  have hl : chainTown.Linked := Town.linked_of_levels (by decide +kernel)
  have hc : chainTown.FirstOnPath := Town.firstOnPath_of_levels hl (by decide +kernel)
  have hlevels : (machine chainTown).AllSteps (fun s x => overruns chainTown s x = false)
      (machine chainTown).init chainRun := by
    decide +kernel
  have hn := Machine.AllSteps.imp _ (fun _ _ => noOverrun_of_not_overruns) _ _ hlevels
  have hs : ((machine chainTown).run chainRun).any (fun s => decide (
      maxPairs chainTown (narrow s) = [(0, 2)] ∧ minBreaks (narrow s) [(0, 1)] = some true ∧
        maxBreaks (narrow s) [(0, 2)] = some false ∧
        makeResult chainTown (narrow s) = some (1, 4))) = true := by
    decide +kernel
  obtain ⟨s, hr, hf, hmin, h01, h10⟩ := chainRun_ends
  rw [hr] at hs
  obtain ⟨hmax, hbmin, hbmax, hres⟩ := of_decide_eq_true hs
  obtain ⟨hrule, hmaxs, hmins⟩ := meetings_classified chainTown hl hc
    (fun x hx y _ _ => chainTown_dist x hx y) chainRun s hr
  obtain ⟨b, hb, hall⟩ := hmaxs hf
  rw [hmax, hbmax] at hb
  obtain ⟨c, hc', hex⟩ := hmins hn hf (by rw [hmin]; simpa using ⟨h01, h10⟩)
  rw [hmin, hbmin] at hc'
  cases hb
  cases hc'
  have hlow := hall.mp rfl (0, 2) (by rw [hmax]; exact List.mem_singleton.mpr rfl)
  obtain ⟨p, hp, hshort⟩ := hex.mp rfl
  rw [hmin] at hp
  rw [List.mem_singleton.mp hp] at hshort
  have hi := inv_of_reachable ⟨_, hr⟩
  have hseen := met_of_finished (p := (0, 1)) hi hf (by decide)
  exact ⟨hc, hn, s, hr, hf, hrule 0 (by decide) 1 (by decide) (by decide) hseen.2.2.2.1
    hseen.2.2.2.2, ⟨hmin, hshort⟩, ⟨hmax, hlow⟩, hres⟩

/-! ## Where the rule is wrong -/

/-- Two neighbouring houses with two common neighbours, in opposite orders. -/
def crossTown : Town where
  toProblem := .ofFits [1, 2] 4 [(1, [4, 3]), (2, [3, 4, 1])] (by decide)
  vertices_le := by decide
  houses_nodup := by decide

/-- Each thread enters one common neighbour, then the one that the other has entered. -/
def crossRun : List Nat :=
  [0, 0, 0, 1, 1, 1, 0, 0, 1, 1] ++ List.replicate 4 0 ++ List.replicate 4 1

theorem crossing_misclassified : crossTown.Linked ∧ ∃ s, (machine crossTown).run crossRun = some s ∧
    Finished crossTown s ∧ Seen s 0 1 ∧ Seen s 1 0 ∧ crossTown.dist 0 1 = 1 ∧
    classify crossTown (narrow s) 0 1 = 2 ∧ maxSum crossTown (narrow s) = 2 ∧
    maxBreaks (narrow s) (maxPairs crossTown (narrow s)) = some true := by
  have hadj : crossTown.graph.Adj (crossTown.houseOf 0) (crossTown.houseOf 1) := by
    rw [House.Problem.graph, SimpleGraph.fromRel_adj]
    exact ⟨by decide, Or.inr ⟨(2, [3, 4, 1]), by decide, rfl, by decide⟩⟩
  have hs : ((machine crossTown).run crossRun).any (fun s => decide ((s.finder 0).pc = .done ∧
      (s.finder 1).pc = .done ∧ Seen s 0 1 ∧ Seen s 1 0 ∧ classify crossTown (narrow s) 0 1 = 2 ∧
      maxSum crossTown (narrow s) = 2 ∧
      maxBreaks (narrow s) (maxPairs crossTown (narrow s)) = some true)) = true := by
    decide +kernel
  obtain ⟨s, hr, h⟩ := (Option.any_eq_true _ _).mp hs
  obtain ⟨h0, h1, hs01, hs10, hcl, hmax, hb⟩ := of_decide_eq_true h
  refine ⟨Town.linked_of_two rfl hadj, s, hr, fun x hx => ?_, hs01, hs10,
    SimpleGraph.dist_eq_one_iff_adj.mpr hadj, hcl, hmax, hb⟩
  have hx' : x < 2 := hx
  obtain rfl | rfl : x = 0 ∨ x = 1 := by omega
  · exact h0
  · exact h1

end MulticorePrac.Meet
