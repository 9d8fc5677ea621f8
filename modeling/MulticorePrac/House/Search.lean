import MulticorePrac.House.Model

/-!
# One search: levels, and what is folded into results

`SearchOk p l`: the variables of a search from `startHouse`.  Between levels the
check map holds what is within `dist` and the buffer is level `dist`; inside a level
the buffer collects level `dist + 1`.  Every house that is checked has its distance
folded into the result of the search.
-/

namespace MulticorePrac.House

/-! ## Results -/

/-- `d` has been folded into `r`. -/
def BFSResult.Covers (r : BFSResult) (d : Nat) : Prop := r.minDist ≤ d ∧ d ≤ r.maxDist

theorem BFSResult.covers_update (r : BFSResult) (d : Nat) : (r.update d).Covers d :=
  ⟨Nat.min_le_right _ _, Nat.le_max_right _ _⟩

theorem BFSResult.Covers.update {r : BFSResult} {d : Nat} (h : r.Covers d) (e : Nat) :
    (r.update e).Covers d :=
  ⟨Nat.le_trans (Nat.min_le_left _ _) h.1, Nat.le_trans h.2 (Nat.le_max_left _ _)⟩

theorem BFSResult.Covers.merge_left {r : BFSResult} {d : Nat} (h : r.Covers d) (r' : BFSResult) :
    (r.merge r').Covers d :=
  ⟨Nat.le_trans (Nat.min_le_left _ _) h.1, Nat.le_trans h.2 (Nat.le_max_left _ _)⟩

theorem BFSResult.Covers.merge_right {r : BFSResult} {d : Nat} (h : r.Covers d) (r' : BFSResult) :
    (r'.merge r).Covers d :=
  ⟨Nat.le_trans (Nat.min_le_right _ _) h.1, Nat.le_trans h.2 (Nat.le_max_right _ _)⟩

theorem BFSResult.merge_update (r r' : BFSResult) (d : Nat) :
    r.merge (r'.update d) = (r.merge r').update d := by
  unfold merge update
  simp only [BFSResult.mk.injEq]
  omega

theorem BFSResult.merge_empty {r : BFSResult} (h : r.minDist ≤ INT_MAX) : r.merge .empty = r := by
  unfold merge empty
  rw [Nat.min_eq_left h, Nat.max_eq_left (Nat.zero_le _)]

/-- Nothing but distances between houses. -/
def Sound (p : Problem) (r : BFSResult) : Prop :=
  r = .empty ∨ (r.minDist ∈ distances p ∧ r.maxDist ∈ distances p)

section
variable {p : Problem}

theorem mem_distances {a b d : Nat} (ha : a ∈ p.houses) (hb : b ∈ p.houses) (hab : a ≠ b)
    (h : At p.graph a d b) : d ∈ distances p := by
  obtain ⟨h1, h2⟩ := at_iff.mp h
  exact ⟨a, ha, b, hb, hab, h1, h2⟩

theorem distances_range {d : Nat} (h : d ∈ distances p) : 0 < d ∧ d ≤ INT_MAX := by
  obtain ⟨a, ha, b, hb, hab, hr, rfl⟩ := h
  refine ⟨hr.pos_dist_of_ne hab, ?_⟩
  have := p.at_lt (p.houses_range a ha) (at_dist hr)
  have := p.vertices_lt
  omega

theorem Sound.min_le {r : BFSResult} (h : Sound p r) : r.minDist ≤ INT_MAX := by
  rcases h with rfl | ⟨h, -⟩
  · exact Nat.le_refl _
  · exact (distances_range h).2

theorem min_or (a b : Nat) : min a b = a ∨ min a b = b := by omega

theorem max_or (a b : Nat) : max a b = a ∨ max a b = b := by omega

theorem Sound.update {r : BFSResult} {d : Nat} (h : Sound p r) (hd : d ∈ distances p) :
    Sound p (r.update d) := by
  right
  unfold BFSResult.update
  rcases h with rfl | ⟨h1, h2⟩
  · simp only [BFSResult.empty]
    rw [Nat.min_eq_right (distances_range hd).2, Nat.max_eq_right (Nat.zero_le d)]
    exact ⟨hd, hd⟩
  · constructor
    · rcases min_or r.minDist d with h | h <;> simp only [h] <;> assumption
    · rcases max_or r.maxDist d with h | h <;> simp only [h] <;> assumption

theorem Sound.merge {r r' : BFSResult} (h : Sound p r) (h' : Sound p r') :
    Sound p (r.merge r') := by
  rcases h' with rfl | ⟨h3, h4⟩
  · rw [BFSResult.merge_empty h.min_le]; exact h
  · right
    unfold BFSResult.merge
    rcases h with rfl | ⟨h1, h2⟩
    · simp only [BFSResult.empty]
      rw [Nat.min_eq_right (distances_range h3).2, Nat.max_eq_right (Nat.zero_le _)]
      exact ⟨h3, h4⟩
    · constructor
      · rcases min_or r.minDist r'.minDist with h | h <;> simp only [h] <;> assumption
      · rcases max_or r.maxDist r'.maxDist with h | h <;> simp only [h] <;> assumption

/-! ## The variables of a search -/

def Searching (l : Worker) : Prop := l.pc = .level ∨ l.pc = .visit

instance (l : Worker) : Decidable (Searching l) := inferInstanceAs (Decidable (_ ∨ _))

/-- Between two levels. -/
structure LevelOk (p : Problem) (l : Worker) : Prop where
  marked : ∀ v, l.checkMap v = true ↔ ∃ e ≤ l.dist, At p.graph l.startHouse e v
  next : ∀ v, v ∈ l.next ↔ At p.graph l.startHouse l.dist v

/-- Inside a level. -/
structure VisitOk (p : Problem) (l : Worker) : Prop where
  marked : ∀ v, l.checkMap v = true ↔ (∃ e ≤ l.dist, At p.graph l.startHouse e v) ∨ v ∈ l.next
  next : ∀ v ∈ l.next, At p.graph l.startHouse (l.dist + 1) v
  cur : ∀ v ∈ l.cur, At p.graph l.startHouse l.dist v
  nbrs : ∀ v ∈ l.nbrs, ∃ u, At p.graph l.startHouse l.dist u ∧ v ∈ p.context.adjlist u
  closed : ∀ u, At p.graph l.startHouse l.dist u → u ∈ l.cur ∨
    ∀ v, p.graph.Adj u v → l.checkMap v = true ∨ v ∈ l.nbrs

structure SearchOk (p : Problem) (l : Worker) : Prop where
  index : l.houseIndex + 1 < p.houses.length
  start : l.startHouse = p.houseOf l.houseIndex
  startIndex : l.startIndex = p.context.houseIndexMap l.startHouse
  seen : ∀ v ∈ p.houses, v ≠ l.startHouse → l.checkMap v = true →
    ∃ d, At p.graph l.startHouse d v ∧ l.result.Covers d
  level : l.pc = .level → LevelOk p l
  visit : l.pc = .visit → VisitOk p l

variable {l : Worker}

theorem SearchOk.start_mem (h : SearchOk p l) : l.startHouse ∈ p.houses := by
  rw [h.start]
  exact p.houseOf_mem (by have := h.index; omega)

theorem SearchOk.houseOf_startIndex (h : SearchOk p l) : p.houseOf l.startIndex = l.startHouse := by
  rw [h.startIndex]
  exact p.houseOf_index h.start_mem

theorem SearchOk.startIndex_lt (h : SearchOk p l) : l.startIndex < p.houses.length := by
  rw [h.startIndex]
  exact p.index_lt h.start_mem

theorem searchOk_start (hi : l.houseIndex + 1 < p.houses.length) :
    SearchOk p (l.start p.context) := by
  refine ⟨hi, rfl, rfl, ?_, fun _ => ⟨fun v => ?_, fun v => ?_⟩, fun h => by cases h⟩
  · intro v _ hne hc
    have hc' : Function.update (fun _ => false) (p.houseOf l.houseIndex) true v = true := hc
    have hne' : v ≠ p.houseOf l.houseIndex := hne
    rw [Function.update_of_ne hne'] at hc'
    cases hc'
  · show Function.update (fun _ => false) (p.houseOf l.houseIndex) true v = true ↔
      ∃ e ≤ 0, At p.graph (p.houseOf l.houseIndex) e v
    by_cases hv : v = p.houseOf l.houseIndex
    · subst hv
      simp only [Function.update_self, true_iff]
      exact ⟨0, Nat.le_refl 0, at_zero.mpr rfl⟩
    · rw [Function.update_of_ne hv]
      constructor
      · intro h; cases h
      · rintro ⟨e, he, h⟩
        obtain rfl : e = 0 := by omega
        exact absurd (at_zero.mp h).symm hv
  · show v ∈ [p.houseOf l.houseIndex] ↔ At p.graph (p.houseOf l.houseIndex) 0 v
    rw [List.mem_singleton, at_zero, eq_comm]

/-- The loop goes on: the buffers are swapped. -/
theorem SearchOk.swap (h : SearchOk p l) (hpc : l.pc = .level) :
    SearchOk p { l with pc := .visit, cur := l.next, next := [], nbrs := [] } := by
  obtain ⟨hm, hn⟩ := h.level hpc
  refine ⟨h.index, h.start, h.startIndex, h.seen, fun h => (by cases h), fun _ => ?_⟩
  refine ⟨fun v => ?_, fun v hv => ?_, fun v hv => (hn v).mp hv, fun v hv => ?_,
    fun u hu => Or.inl ((hn u).mpr hu)⟩
  · show l.checkMap v = true ↔ _ ∨ v ∈ []
    rw [hm v]
    simp
  · cases hv
  · cases hv

/-- The next vertex of the level. -/
theorem SearchOk.vertex (h : SearchOk p l) (hpc : l.pc = .visit) (hnbrs : l.nbrs = []) {v : Nat}
    {cur : List Nat} (hcur : l.cur = v :: cur) :
    SearchOk p { l with cur := cur, nbrs := visitOrder (p.context.adjlist v) } := by
  have hv := h.visit hpc
  have hat : At p.graph l.startHouse l.dist v := hv.cur v (by rw [hcur]; exact List.mem_cons_self)
  have hmem : ∀ x, x ∈ visitOrder (p.context.adjlist v) ↔ x ∈ p.context.adjlist v := by
    intro x
    unfold visitOrder
    rw [if_pos (p.length_adjlist v), List.mem_reverse]
  refine ⟨h.index, h.start, h.startIndex, h.seen, fun hp => ?_, fun _ => ?_⟩
  · exact absurd (hpc.symm.trans hp) (by simp)
  · refine ⟨hv.marked, hv.next, fun x hx => ?_, fun x hx => ⟨v, hat, (hmem x).mp hx⟩, fun u hu => ?_⟩
    · exact hv.cur x (by rw [hcur]; exact List.mem_cons_of_mem _ hx)
    · rcases hv.closed u hu with hmem' | hcl
      · rw [hcur] at hmem'
        rcases List.mem_cons.mp hmem' with rfl | hmem'
        · exact Or.inr fun x hx => Or.inr ((hmem x).mpr (p.adjlist_of_adj hx))
        · exact Or.inl hmem'
      · refine Or.inr fun x hx => ?_
        rcases hcl x hx with hc | hc
        · exact Or.inl hc
        · rw [hnbrs] at hc; cases hc

/-- The level is done. -/
theorem SearchOk.endLevel (h : SearchOk p l) (hpc : l.pc = .visit) (hnbrs : l.nbrs = [])
    (hcur : l.cur = []) : SearchOk p { l with pc := .level, dist := l.dist + 1 } := by
  have hv := h.visit hpc
  have hclosed : ∀ u v, At p.graph l.startHouse l.dist u → p.graph.Adj u v →
      l.checkMap v = true := by
    intro u v hu ha
    rcases hv.closed u hu with hm | hcl
    · rw [hcur] at hm; cases hm
    · rcases hcl v ha with hc | hc
      · exact hc
      · rw [hnbrs] at hc; cases hc
  have hstep : ∀ v, v ∈ l.next ↔ At p.graph l.startHouse (l.dist + 1) v :=
    level_step hv.marked hv.next hclosed
  refine ⟨h.index, h.start, h.startIndex, h.seen, fun _ => ⟨fun v => ?_, hstep⟩,
    fun hp => (by cases hp)⟩
  show l.checkMap v = true ↔ ∃ e ≤ l.dist + 1, _
  rw [hv.marked v, hstep v]
  constructor
  · rintro (⟨e, he, ha⟩ | ha)
    · exact ⟨e, by omega, ha⟩
    · exact ⟨_, Nat.le_refl _, ha⟩
  · rintro ⟨e, he, ha⟩
    by_cases hed : e = l.dist + 1
    · subst hed; exact Or.inr ha
    · exact Or.inl ⟨e, by omega, ha⟩

/-- A neighbour that is not checked is on the next level. -/
theorem VisitOk.fresh (hv : VisitOk p l) {v : Nat} (hm : v ∈ l.nbrs) (hc : l.checkMap v = false) :
    At p.graph l.startHouse (l.dist + 1) v := by
  obtain ⟨u, hu, ha⟩ := hv.nbrs v hm
  have hnot : ∀ e ≤ l.dist, ¬ At p.graph l.startHouse e v := by
    intro e he h
    have := (hv.marked v).mpr (Or.inl ⟨e, he, h⟩)
    rw [hc] at this
    cases this
  rcases p.mem_adjlist ha with rfl | ha
  · exact absurd hu (hnot _ (Nat.le_refl _))
  · obtain ⟨e, he, hle, -⟩ := hu.adj ha
    have hgt : ¬ e ≤ l.dist := fun hle => hnot e hle he
    obtain rfl : e = l.dist + 1 := by omega
    exact he

/-- `VISIT_VERTEX` on a vertex that is checked already. -/
theorem SearchOk.skip (h : SearchOk p l) (hpc : l.pc = .visit) {v : Nat} {nbrs : List Nat}
    (hnbrs : l.nbrs = v :: nbrs) (hc : l.checkMap v = true) :
    SearchOk p { l with nbrs := nbrs } := by
  have hv := h.visit hpc
  refine ⟨h.index, h.start, h.startIndex, h.seen, fun hp => ?_, fun _ => ?_⟩
  · exact absurd (hpc.symm.trans hp) (by simp)
  · refine ⟨hv.marked, hv.next, hv.cur, fun x hx => ?_, fun u hu => ?_⟩
    · exact hv.nbrs x (by rw [hnbrs]; exact List.mem_cons_of_mem _ hx)
    · rcases hv.closed u hu with hm | hcl
      · exact Or.inl hm
      · refine Or.inr fun x hx => ?_
        rcases hcl x hx with hc' | hc'
        · exact Or.inl hc'
        · rw [hnbrs] at hc'
          rcases List.mem_cons.mp hc' with rfl | hc'
          · exact Or.inl hc
          · exact Or.inr hc'

/-- `VISIT_VERTEX` on a new vertex; a house is folded into the result. -/
theorem SearchOk.mark (h : SearchOk p l) (hpc : l.pc = .visit) {v : Nat} {nbrs : List Nat}
    (hnbrs : l.nbrs = v :: nbrs) (hc : l.checkMap v = false) {r : BFSResult}
    (hr : ∀ d, l.result.Covers d → r.Covers d) (hv' : v ∈ p.houses → r.Covers (l.dist + 1)) :
    SearchOk p { l with
      nbrs := nbrs
      next := l.next ++ [v]
      checkMap := Function.update l.checkMap v true
      result := r } := by
  have hv := h.visit hpc
  have hat := hv.fresh (v := v) (by rw [hnbrs]; exact List.mem_cons_self) hc
  refine ⟨h.index, h.start, h.startIndex, fun x hx hne hcx => ?_, fun hp => ?_, fun _ => ?_⟩
  · by_cases hxv : x = v
    · subst hxv
      exact ⟨_, hat, hv' hx⟩
    · simp only [Function.update_of_ne hxv] at hcx
      obtain ⟨d, h1, h2⟩ := h.seen x hx hne hcx
      exact ⟨d, h1, hr d h2⟩
  · exact absurd (hpc.symm.trans hp) (by simp)
  · refine ⟨fun x => ?_, fun x hx => ?_, hv.cur, fun x hx => ?_, fun u hu => ?_⟩
    · show Function.update l.checkMap v true x = true ↔ _ ∨ x ∈ l.next ++ [v]
      by_cases hxv : x = v
      · subst hxv; simp
      · rw [Function.update_of_ne hxv, hv.marked x]
        simp [hxv]
    · rcases List.mem_append.mp hx with hx | hx
      · exact hv.next x hx
      · rw [List.mem_singleton.mp hx]; exact hat
    · exact hv.nbrs x (by rw [hnbrs]; exact List.mem_cons_of_mem _ hx)
    · rcases hv.closed u hu with hm | hcl
      · exact Or.inl hm
      · refine Or.inr fun x hx => ?_
        show Function.update l.checkMap v true x = true ∨ x ∈ nbrs
        by_cases hxv : x = v
        · subst hxv; simp
        · rw [Function.update_of_ne hxv]
          rcases hcl x hx with hc' | hc'
          · exact Or.inl hc'
          · rw [hnbrs] at hc'
            rcases List.mem_cons.mp hc' with hc' | hc'
            · exact absurd hc' hxv
            · exact Or.inr hc'

/-- The search runs out of vertices: every house it can reach is in its result. -/
theorem SearchOk.exhausted (h : SearchOk p l) (hpc : l.pc = .level) (hnext : l.next = []) {v : Nat}
    (hv : v ∈ p.houses) (hne : v ≠ l.startHouse) (hr : p.graph.Reachable l.startHouse v) :
    ∃ d, At p.graph l.startHouse d v ∧ l.result.Covers d := by
  obtain ⟨hm, hn⟩ := h.level hpc
  refine h.seen v hv hne ((hm v).mpr ⟨_, ?_, at_dist hr⟩)
  apply Classical.byContradiction
  intro hgt
  obtain ⟨u, hu⟩ := (at_dist hr).below l.dist (by omega)
  have := (hn u).mpr hu
  rw [hnext] at this
  cases this

end

end MulticorePrac.House
