import Mathlib.Combinatorics.SimpleGraph.Metric

/-!
# Levels of a breadth-first search

`At G s d v`: the shortest path from `s` to `v` has length `d`.  A search that
goes level by level relies on two facts: a neighbour of a vertex at level `d` is
at level `d + 1` or below, and every vertex at level `d + 1` has a neighbour at
level `d`.  So once all neighbours of level `d` are marked, what was newly marked
is level `d + 1` (`level_step`), and an empty level is the end (`At.below`).
-/

namespace MulticorePrac

variable {V : Type} {G : SimpleGraph V} {s u v : V} {d e : Nat}

def At (G : SimpleGraph V) (s : V) (d : Nat) (v : V) : Prop := G.edist s v = d

theorem at_iff : At G s d v ↔ G.Reachable s v ∧ G.dist s v = d := by
  unfold At
  constructor
  · intro h
    have hr : G.Reachable s v := SimpleGraph.edist_ne_top_iff_reachable.mp (by rw [h]; simp)
    have hc := hr.coe_dist_eq_edist
    rw [h] at hc
    exact ⟨hr, by exact_mod_cast hc⟩
  · rintro ⟨hr, rfl⟩
    exact hr.coe_dist_eq_edist.symm

theorem at_dist (h : G.Reachable s v) : At G s (G.dist s v) v := at_iff.mpr ⟨h, rfl⟩

theorem at_zero : At G s 0 v ↔ s = v := by
  unfold At
  rw [Nat.cast_zero]
  exact SimpleGraph.edist_eq_zero_iff

theorem At.inj (h : At G s d v) (h' : At G s e v) : d = e := by
  unfold At at h h'
  rw [h] at h'
  exact_mod_cast h'

theorem At.symm (h : At G s d v) : At G v d s := by
  unfold At at h ⊢
  rw [SimpleGraph.edist_comm]
  exact h

theorem At.triangle {w : V} {f : Nat} (h : At G s d v) (h' : At G v e w) (h'' : At G s f w) :
    f ≤ d + e := by
  have ht := G.edist_triangle (u := s) (v := v) (w := w)
  unfold At at h h' h''
  rw [h, h', h''] at ht
  exact_mod_cast ht

theorem At.reach {w : V} (h : At G s d v) (h' : At G v e w) : ∃ f ≤ d + e, At G s f w := by
  have hr := (at_iff.mp h).1.trans (at_iff.mp h').1
  exact ⟨_, h.triangle h' (at_dist hr), at_dist hr⟩

theorem at_one : At G u 1 v ↔ G.Adj u v := by
  unfold At
  rw [Nat.cast_one]
  exact SimpleGraph.edist_eq_one_iff_adj

/-- A neighbour is one level away at most. -/
theorem At.adj (h : At G s d u) (ha : G.Adj u v) : ∃ e, At G s e v ∧ e ≤ d + 1 ∧ d ≤ e + 1 := by
  obtain ⟨e, hle, he⟩ := h.reach (at_one.mpr ha)
  exact ⟨e, he, hle, he.triangle (at_one.mpr ha.symm) h⟩

/-- A vertex that is not the start has a neighbour one level before it. -/
theorem At.pred (h : At G s (d + 1) v) : ∃ u, At G s d u ∧ G.Adj u v := by
  obtain ⟨hr, hd⟩ := at_iff.mp h.symm
  obtain ⟨p, hp⟩ := hr.exists_walk_length_eq_dist
  cases p with
  | nil => rw [SimpleGraph.dist_self] at hd; omega
  | cons ha q =>
    rename_i u
    rw [hd, SimpleGraph.Walk.length_cons] at hp
    have hq : G.dist s u ≤ d := by
      have := SimpleGraph.dist_le q
      rw [SimpleGraph.dist_comm] at this
      omega
    have hu := at_dist q.reachable.symm
    have hge := hu.triangle (at_one.mpr ha.symm) h
    have : G.dist s u = d := by omega
    exact ⟨u, this ▸ hu, ha.symm⟩

/-- Every level up to that of a vertex is inhabited. -/
theorem At.below : ∀ {d : Nat} {v : V}, At G s d v → ∀ e ≤ d, ∃ u, At G s e u := by
  intro d
  induction d with
  | zero =>
    intro v h e he
    obtain rfl : e = 0 := by omega
    exact ⟨v, h⟩
  | succ d ih =>
    intro v h e he
    by_cases hed : e = d + 1
    · subst hed; exact ⟨v, h⟩
    · obtain ⟨u, hu, -⟩ := h.pred
      exact ih hu e (by omega)

/-- A vertex on a shortest path, at any level. -/
theorem At.split : ∀ {d : Nat} {v : V}, At G s d v → ∀ e ≤ d, ∃ u, At G s e u ∧ At G u (d - e) v := by
  intro d
  induction d with
  | zero =>
    intro v h e he
    obtain rfl : e = 0 := by omega
    exact ⟨v, h, at_zero.mpr rfl⟩
  | succ d ih =>
    intro v h e he
    by_cases hed : e = d + 1
    · subst hed
      exact ⟨v, h, by rw [Nat.sub_self]; exact at_zero.mpr rfl⟩
    · obtain ⟨w, hw, ha⟩ := h.pred
      obtain ⟨u, hu, hr⟩ := ih hw e (by omega)
      refine ⟨u, hu, ?_⟩
      obtain ⟨f, hf, hle, -⟩ := hr.adj ha
      have hge := hu.triangle hf h
      have : f = d + 1 - e := by omega
      rw [← this]
      exact hf

/-- The newly marked vertices are the next level, once every neighbour of level `d` is marked. -/
theorem level_step {marked fresh : V → Prop}
    (hmark : ∀ v, marked v ↔ (∃ e ≤ d, At G s e v) ∨ fresh v)
    (hfresh : ∀ v, fresh v → At G s (d + 1) v)
    (hclosed : ∀ u v, At G s d u → G.Adj u v → marked v) (v : V) :
    fresh v ↔ At G s (d + 1) v := by
  refine ⟨hfresh v, fun h => ?_⟩
  obtain ⟨u, hu, ha⟩ := h.pred
  rcases (hmark v).mp (hclosed u v hu ha) with ⟨e, he, h'⟩ | h'
  · have := h.inj h'
    omega
  · exact h'

end MulticorePrac
