import MulticorePrac.Lib.Level

/-!
# The order of a breadth-first search

A search with a queue enters vertices in an order that depends on the start and
on the order of the adjacency lists only.  `level nbrs s d` is the list of the
vertices entered at depth `d`, in that order, and `upTo nbrs s d` all vertices
entered up to depth `d`.  `scan` is the work on one adjacency list, `expand` the
work on the rest of a level, both from what was entered so far, so an interrupted
search is described by what is left of them.  On lists that represent a graph the
vertices of `level d` are those at distance `d` (`mem_level`).
-/

namespace MulticorePrac.Bfs

variable {V : Type} [DecidableEq V]

/-- Enter the vertices of a list that are neither in `seen` nor entered yet. -/
def scan (seen : List V) : List V → List V → List V
  | acc, [] => acc
  | acc, v :: vs => if v ∈ seen ∨ v ∈ acc then scan seen acc vs else scan seen (acc ++ [v]) vs

/-- Scan the adjacency lists of the vertices that are left of a level. -/
def expand (nbrs : V → List V) (seen : List V) : List V → List V → List V
  | acc, [] => acc
  | acc, u :: us => expand nbrs seen (scan seen acc (nbrs u)) us

/-- What was entered up to depth `d`, and at depth `d`. -/
def levels (nbrs : V → List V) (s : V) : Nat → List V × List V
  | 0 => ([s], [s])
  | d + 1 =>
    let next := expand nbrs (levels nbrs s d).1 [] (levels nbrs s d).2
    ((levels nbrs s d).1 ++ next, next)

def upTo (nbrs : V → List V) (s : V) (d : Nat) : List V := (levels nbrs s d).1

def level (nbrs : V → List V) (s : V) (d : Nat) : List V := (levels nbrs s d).2

theorem level_succ (nbrs : V → List V) (s : V) (d : Nat) :
    level nbrs s (d + 1) = expand nbrs (upTo nbrs s d) [] (level nbrs s d) := rfl

theorem upTo_succ (nbrs : V → List V) (s : V) (d : Nat) :
    upTo nbrs s (d + 1) = upTo nbrs s d ++ level nbrs s (d + 1) := rfl

/-! ## What `scan` and `expand` enter -/

theorem scan_skip {seen acc : List V} {v : V} {vs : List V} (h : v ∈ seen ∨ v ∈ acc) :
    scan seen acc (v :: vs) = scan seen acc vs := by
  rw [scan, if_pos h]

theorem scan_enter {seen acc : List V} {v : V} {vs : List V} (h : ¬(v ∈ seen ∨ v ∈ acc)) :
    scan seen acc (v :: vs) = scan seen (acc ++ [v]) vs := by
  rw [scan, if_neg h]

theorem mem_scan {seen : List V} {w : V} :
    ∀ (vs acc : List V), w ∈ scan seen acc vs ↔ w ∈ acc ∨ (w ∈ vs ∧ w ∉ seen) := by
  intro vs
  induction vs with
  | nil => intro acc; simp [scan]
  | cons v vs ih =>
    intro acc
    by_cases hv : v ∈ seen ∨ v ∈ acc
    · rw [scan_skip hv, ih]
      by_cases hw : w = v
      · subst hw; simp only [List.mem_cons]; tauto
      · simp [hw]
    · rw [scan_enter hv, ih, List.mem_append, List.mem_singleton]
      by_cases hw : w = v
      · subst hw; simp only [List.mem_cons]; tauto
      · simp [hw]

theorem mem_expand {nbrs : V → List V} {seen : List V} {w : V} :
    ∀ (us acc : List V),
      w ∈ expand nbrs seen acc us ↔ w ∈ acc ∨ ∃ u ∈ us, w ∈ nbrs u ∧ w ∉ seen := by
  intro us
  induction us with
  | nil => intro acc; simp [expand]
  | cons u us ih =>
    intro acc
    rw [expand, ih, mem_scan, List.exists_mem_cons_iff, or_assoc]

/-- What was entered stays, in its order. -/
theorem scan_grows {seen : List V} : ∀ (vs acc : List V), acc <+: scan seen acc vs := by
  intro vs
  induction vs with
  | nil => intro acc; exact List.prefix_rfl
  | cons v vs ih =>
    intro acc
    by_cases hv : v ∈ seen ∨ v ∈ acc
    · rw [scan_skip hv]; exact ih acc
    · rw [scan_enter hv]; exact (List.prefix_append acc [v]).trans (ih _)

theorem expand_grows {nbrs : V → List V} {seen : List V} :
    ∀ (us acc : List V), acc <+: expand nbrs seen acc us := by
  intro us
  induction us with
  | nil => intro acc; exact List.prefix_rfl
  | cons u us ih => intro acc; exact (scan_grows (nbrs u) acc).trans (ih _)

/-! ## Nothing is entered twice -/

theorem scan_nodup {seen : List V} :
    ∀ (vs acc : List V), acc.Nodup → (scan seen acc vs).Nodup := by
  intro vs
  induction vs with
  | nil => intro acc h; exact h
  | cons v vs ih =>
    intro acc h
    by_cases hv : v ∈ seen ∨ v ∈ acc
    · rw [scan_skip hv]; exact ih acc h
    · rw [scan_enter hv, ← List.concat_eq_append]
      exact ih _ ((List.nodup_concat acc v).mpr ⟨(not_or.mp hv).2, h⟩)

theorem expand_nodup {nbrs : V → List V} {seen : List V} :
    ∀ (us acc : List V), acc.Nodup → (expand nbrs seen acc us).Nodup := by
  intro us
  induction us with
  | nil => intro acc h; exact h
  | cons u us ih => intro acc h; exact ih _ (scan_nodup (nbrs u) acc h)

theorem upTo_nodup (nbrs : V → List V) (s : V) (d : Nat) : (upTo nbrs s d).Nodup := by
  induction d with
  | zero => exact List.nodup_singleton s
  | succ d ih =>
    rw [upTo_succ, level_succ]
    refine List.nodup_append.mpr ⟨ih, expand_nodup _ [] List.nodup_nil, fun u hu v hv huv => ?_⟩
    rcases (mem_expand _ []).mp hv with hv | ⟨_, -, -, hv⟩
    · cases hv
    · exact hv (huv ▸ hu)

/-! ## Lists that represent a graph -/

/-- The lists hold the edges of `G`, and perhaps loops. -/
structure Represents (G : SimpleGraph V) (nbrs : V → List V) : Prop where
  mem : ∀ {u v}, v ∈ nbrs u → u = v ∨ G.Adj u v
  adj : ∀ {u v}, G.Adj u v → v ∈ nbrs u

section
variable {G : SimpleGraph V} {nbrs : V → List V} (hG : Represents G nbrs) (s : V)
include hG

theorem mem_levels : ∀ d, (∀ v, v ∈ level nbrs s d ↔ At G s d v) ∧
    ∀ v, v ∈ upTo nbrs s d ↔ ∃ e ≤ d, At G s e v := by
  intro d
  induction d with
  | zero =>
    have h0 : ∀ v, v ∈ [s] ↔ At G s 0 v := by
      intro v
      rw [List.mem_singleton, at_zero]
      exact eq_comm
    refine ⟨h0, fun v => (h0 v).trans ⟨fun h => ⟨0, Nat.le_refl 0, h⟩, ?_⟩⟩
    rintro ⟨e, he, h⟩
    obtain rfl : e = 0 := by omega
    exact h
  | succ d ih =>
    obtain ⟨ihl, ihu⟩ := ih
    have hl : ∀ v, v ∈ level nbrs s (d + 1) ↔ At G s (d + 1) v := by
      intro v
      rw [level_succ, mem_expand]
      constructor
      · rintro (h | ⟨u, hu, hv, hn⟩)
        · exact absurd h List.not_mem_nil
        · rw [ihl] at hu
          rw [ihu] at hn
          rcases hG.mem hv with rfl | ha
          · exact absurd ⟨d, Nat.le_refl d, hu⟩ hn
          · obtain ⟨e, he, hle, -⟩ := hu.adj ha
            have : ¬ e ≤ d := fun h => hn ⟨e, h, he⟩
            obtain rfl : e = d + 1 := by omega
            exact he
      · intro h
        obtain ⟨u, hu, ha⟩ := h.pred
        refine Or.inr ⟨u, (ihl u).mpr hu, hG.adj ha, fun hv => ?_⟩
        obtain ⟨e, he, h'⟩ := (ihu v).mp hv
        have := h.inj h'
        omega
    refine ⟨hl, fun v => ?_⟩
    rw [upTo_succ, List.mem_append, ihu, hl]
    constructor
    · rintro (⟨e, he, h⟩ | h)
      · exact ⟨e, by omega, h⟩
      · exact ⟨d + 1, Nat.le_refl _, h⟩
    · rintro ⟨e, he, h⟩
      by_cases hed : e = d + 1
      · subst hed; exact Or.inr h
      · exact Or.inl ⟨e, by omega, h⟩

theorem mem_level {d : Nat} {v : V} : v ∈ level nbrs s d ↔ At G s d v := (mem_levels hG s d).1 v

theorem mem_upTo {d : Nat} {v : V} : v ∈ upTo nbrs s d ↔ ∃ e ≤ d, At G s e v :=
  (mem_levels hG s d).2 v

end

end MulticorePrac.Bfs
