import MulticorePrac.House.Workers

/-!
# What the program prints

When every worker is done, the houses but the last have been taken and searched,
and of two distinct houses one is not the last; so every distance is in some
result, and the merged result is the answer.  The program comes to that point: a
measure of what is left to do drops with every step.
-/

namespace MulticorePrac.House

section
variable {p : Problem} {n : Nat} {s s' : St} {w : Nat}

/-! ## Runs -/

theorem inv_initial (p : Problem) (n : Nat) : Inv p n initial := by
  have hnot : ¬ Searching initialWorker := by
    rintro (h | h) <;> cases h
  refine ⟨fun i j h => ?_, fun w _ h => absurd h hnot, fun w _ => ?_, fun k _ hk => ?_,
    fun w _ h => (by cases h), Nat.zero_le n, ⟨fun w hw => ?_, Or.inl rfl, fun w hw => ?_⟩⟩
  · simp [initial] at h
  · rw [soFar_of_not_searching (show ¬ Searching (initial.worker w) from hnot)]
    exact Or.inl rfl
  · exact absurd hk (Nat.not_lt_zero k)
  · exact absurd hw (Nat.not_lt_zero w)
  · exact absurd hw (Nat.not_lt_zero w)

theorem inv_main (h : Inv p n s) (hs : mainStep n s = some s') : Inv p n s' := by
  have hm := h.main
  unfold MainOk at hm
  unfold mainStep at hs
  cases hpc : s.mainPc with
  | printed => rw [hpc] at hs; cases hs
  | join k =>
    rw [hpc] at hs hm
    obtain ⟨hk, hj⟩ := hm
    by_cases hlt : k < n
    · simp only [if_pos hlt] at hs
      cases hd : (s.worker k).pc with
      | done =>
        simp only [hd] at hs
        cases hs
        have hsound : Sound p (s.worker k).total := by
          have := h.sound k hlt
          rwa [soFar_of_not_searching (by rintro (h | h) <;> rw [hd] at h <;> cases h)] at this
        refine ⟨h.bits, h.search, h.sound, h.claimed, h.ended, hlt, ?_, hj.sound.merge hsound, ?_⟩
        · intro u hu
          by_cases huk : u = k
          · subst huk; exact hd
          · exact hj.done u (by omega)
        · intro u hu d hc
          by_cases huk : u = k
          · subst huk; exact hc.merge_right _
          · exact (hj.covers u (by omega) d hc).merge_left _
      | _ => simp only [hd] at hs; cases hs
    · simp only [if_neg hlt] at hs
      cases hs
      obtain rfl : k = n := by omega
      exact ⟨h.bits, h.search, h.sound, h.claimed, h.ended, hj.done, hj.sound, hj.covers⟩

theorem inv_step {a : Act} (h : Inv p n s) (hs : step p.context n s a = some s') : Inv p n s' := by
  cases a with
  | main => exact inv_main h hs
  | worker w =>
    unfold step at hs
    by_cases hw : w < n
    · simp only [if_pos hw] at hs
      exact inv_worker h hw hs
    · simp only [if_neg hw] at hs
      cases hs

theorem inv_of_reachable (hs : (houseWorkers p.context n).Reachable s) : Inv p n s :=
  (houseWorkers p.context n).invariant (Inv p n) (inv_initial p n)
    (fun _ _ _ hi hs => inv_step hi hs) hs

/-! ## The answer -/

/-- Every distance is in the printed result. -/
theorem covers_of_printed (h : Inv p n s) (hn : 0 < n ∨ p.houses.length ≤ 1)
    (hpc : s.mainPc = .printed) {d : Nat} (hd : d ∈ distances p) : s.result.Covers d := by
  have hj : Joined p s n := by
    have := h.main
    unfold MainOk at this
    rwa [hpc] at this
  have hnot : ∀ w < n, ¬ Searching (s.worker w) := by
    rintro w hw (hs | hs) <;> rw [hj.done w hw] at hs <;> cases hs
  have hend : p.houses.length ≤ s.houseIndex + 1 := by
    rcases hn with hn | hn
    · exact h.ended 0 hn (hj.done 0 hn)
    · omega
  have hcomp : ∀ k, k + 1 < p.houses.length → Complete p n s k := by
    intro k hk
    rcases h.claimed k hk (by omega) with ⟨w, hw, hs, -⟩ | hc
    · exact absurd hs (hnot w hw)
    · exact hc
  have hrec : ∀ a b, Recorded p n s a b → ∃ e, At p.graph a e b ∧ s.result.Covers e := by
    rintro a b ⟨e, h1, w, hw, hc⟩
    rw [soFar_of_not_searching (hnot w hw)] at hc
    exact ⟨e, h1, hj.covers w hw e hc⟩
  obtain ⟨a, ha, b, hb, hab, hr, rfl⟩ := hd
  -- one of the two houses is not the last one
  have hia := p.index_lt ha
  have hib := p.index_lt hb
  have hne : p.context.houseIndexMap a ≠ p.context.houseIndexMap b := by
    intro he
    apply hab
    rw [← p.houseOf_index ha, he, p.houseOf_index hb]
  by_cases hlast : p.context.houseIndexMap a + 1 < p.houses.length
  · have := hcomp _ hlast b hb
    rw [p.houseOf_index ha] at this
    obtain ⟨e, h1, h2⟩ := hrec a b (this (Ne.symm hab) hr)
    rwa [(at_dist hr).inj h1]
  · have := hcomp (p.context.houseIndexMap b) (by omega) a ha
    rw [p.houseOf_index hb] at this
    obtain ⟨e, h1, h2⟩ := hrec b a (this hab hr.symm)
    rwa [(at_dist hr).inj h1.symm]

theorem isAnswer_of_covers {r : BFSResult} (hs : Sound p r) (hc : ∀ d ∈ distances p, r.Covers d) :
    IsAnswer p r := by
  rcases hs with rfl | ⟨h1, h2⟩
  · left
    refine ⟨?_, rfl, rfl⟩
    rw [Set.eq_empty_iff_forall_notMem]
    intro d hd
    have h3 : d ≤ 0 := (hc d hd).2
    have h4 := (distances_range hd).1
    omega
  · right
    exact ⟨⟨h1, fun d hd => (hc d hd).1⟩, ⟨h2, fun d hd => (hc d hd).2⟩⟩

/-! ## The program ends -/

/-- What a worker has left to do in the search it is in. -/
def Worker.left (p : Problem) (l : Worker) : Nat :=
  match l.pc with
  | .test => 2
  | .claim => 1
  | .level => 3 + 14 * unchecked p l.checkMap + 14 * l.next.length
  | .visit =>
    4 + 14 * unchecked p l.checkMap + 14 * l.next.length + 12 * l.cur.length + l.nbrs.length
  | .done => 0

/-- A bound for a whole search. -/
def searchBound (p : Problem) : Nat := 3 + 14 * (p.numVertices + 1) + 14

def MainPc.left (n : Nat) : MainPc → Nat
  | .join k => n - k + 1
  | .printed => 0

def left (p : Problem) (n : Nat) (s : St) : Nat :=
  searchBound p * (p.houses.length - s.houseIndex) +
    ∑ u ∈ Finset.range n, (s.worker u).left p + s.mainPc.left n

/-- A worker's step that takes no house. -/
theorem left_move {l : Worker} (hw : w < n) (hl : l.left p < (s.worker w).left p)
    (hworker : s'.worker = Function.update s.worker w l) (hi : s.houseIndex ≤ s'.houseIndex)
    (hmain : s'.mainPc = s.mainPc) : left p n s' < left p n s := by
  have hsum := Machine.sum_update (fun l : Worker => l.left p) s.worker hw l
  have hmul : searchBound p * (p.houses.length - s'.houseIndex) ≤
      searchBound p * (p.houses.length - s.houseIndex) := Nat.mul_le_mul_left _ (by omega)
  unfold left
  rw [hworker, hmain]
  omega

theorem length_visitOrder_le (vs : List Nat) : (visitOrder vs).length ≤ 10 := by
  unfold visitOrder
  by_cases h : vs.length ≤ MAX_EDGES_PER_VERTEX
  · rw [if_pos h, List.length_reverse]
    exact h
  · rw [if_neg h]
    exact Nat.zero_le _

theorem left_visitVertex (h : Inv p n s) (hw : w < n) (hpc : (s.worker w).pc = .visit) {v : Nat}
    {nbrs : List Nat} (hnbrs : (s.worker w).nbrs = v :: nbrs) :
    left p n (visitVertex p.context s w v nbrs) < left p n s := by
  have hok := h.search w hw (Or.inr hpc)
  obtain ⟨u, -, hadj⟩ := (hok.visit hpc).nbrs v (by rw [hnbrs]; exact List.mem_cons_self)
  have hrange := (p.adjlist_range hadj).2
  have hold : (s.worker w).left p = 4 + 14 * unchecked p (s.worker w).checkMap +
      14 * (s.worker w).next.length + 12 * (s.worker w).cur.length + (nbrs.length + 1) := by
    unfold Worker.left
    rw [hpc, hnbrs]
    rfl
  -- a new vertex moves from the unchecked ones to the buffer
  have hnew : ∀ r : BFSResult, (s.worker w).checkMap v = false →
      ({ s.worker w with
        nbrs := nbrs
        next := (s.worker w).next ++ [v]
        checkMap := Function.update (s.worker w).checkMap v true
        result := r } : Worker).left p < (s.worker w).left p := by
    intro r hc
    rw [hold]
    unfold Worker.left
    simp only [hpc, List.length_append, List.length_singleton]
    have := unchecked_mark hrange hc
    omega
  unfold visitVertex
  by_cases hc : (s.worker w).checkMap v = true
  · simp only [if_pos hc]
    refine left_move hw ?_ rfl (Nat.le_refl _) rfl
    rw [hold]
    unfold Worker.left
    simp only [hpc]
    omega
  · have hcf : (s.worker w).checkMap v = false := by simpa using hc
    simp only [if_neg hc]
    by_cases hb : p.context.houseBitmap v = true
    · simp only [if_pos hb]
      exact left_move hw (hnew _ hcf) rfl (Nat.le_refl _) rfl
    · simp only [if_neg hb]
      exact left_move hw (hnew _ hcf) rfl (Nat.le_refl _) rfl

theorem left_worker (h : Inv p n s) (hw : w < n) (hs : workerStep p.context s w = some s') :
    left p n s' < left p n s := by
  cases hpc : (s.worker w).pc with
  | test =>
    have hold : (s.worker w).left p = 2 := by unfold Worker.left; rw [hpc]
    simp only [workerStep, hpc] at hs
    split at hs
    · cases hs
      exact left_move hw (by rw [hold]; exact Nat.one_lt_two) rfl (Nat.le_refl _) rfl
    · cases hs
      exact left_move hw (by rw [hold]; exact Nat.two_pos) rfl (Nat.le_refl _) rfl
  | claim =>
    have hold : (s.worker w).left p = 1 := by unfold Worker.left; rw [hpc]
    simp only [workerStep, hpc] at hs
    by_cases hlt : s.houseIndex + 1 < p.context.houses.length
    · rw [if_pos hlt] at hs
      cases hs
      have hlt' : s.houseIndex + 1 < p.houses.length := hlt
      obtain ⟨l, hl⟩ : ∃ l, l =
        ({ s.worker w with pc := .claim, houseIndex := s.houseIndex } : Worker).start p.context :=
        ⟨_, rfl⟩
      have hbound : l.left p ≤ searchBound p := by
        have := unchecked_le p l.checkMap
        rw [hl] at this ⊢
        show 3 + 14 * unchecked p _ + 14 * 1 ≤ searchBound p
        unfold searchBound
        omega
      have hsum := Machine.sum_update (fun l : Worker => l.left p) s.worker hw l
      have hsub : p.houses.length - s.houseIndex = p.houses.length - (s.houseIndex + 1) + 1 := by
        omega
      rw [hold] at hsum
      rw [← hl]
      unfold left
      show searchBound p * (p.houses.length - (s.houseIndex + 1)) +
        ∑ u ∈ Finset.range n, (Function.update s.worker w l u).left p + s.mainPc.left n < _
      rw [hsub, Nat.mul_succ]
      omega
    · rw [if_neg hlt] at hs
      cases hs
      exact left_move hw (by rw [hold]; exact Nat.one_pos) rfl (Nat.le_succ _) rfl
  | level =>
    have hold : (s.worker w).left p =
        3 + 14 * unchecked p (s.worker w).checkMap + 14 * (s.worker w).next.length := by
      unfold Worker.left; rw [hpc]
    simp only [workerStep, hpc] at hs
    cases hs
    unfold nextLevel
    by_cases hgo : s.visitBitmap (s.worker w).startIndex ≠
        fullVisitBits (s.worker w).startIndex p.context.houses.length ∧ (s.worker w).next ≠ []
    · rw [if_pos hgo]
      refine left_move hw ?_ rfl (Nat.le_refl _) rfl
      have hpos := List.length_pos_iff.mpr hgo.2
      rw [hold]
      show 4 + 14 * unchecked p (s.worker w).checkMap + 14 * 0 + 12 * (s.worker w).next.length + 0 < _
      omega
    · rw [if_neg hgo]
      refine left_move hw ?_ rfl (Nat.le_refl _) rfl
      rw [hold]
      show 2 < _
      omega
  | visit =>
    cases hn : (s.worker w).nbrs with
    | cons v nbrs =>
      rw [workerStep_visit hpc hn] at hs
      cases hs
      exact left_visitVertex h hw hpc hn
    | nil =>
      cases hc : (s.worker w).cur with
      | cons v cur =>
        rw [workerStep_vertex hpc hn hc] at hs
        cases hs
        refine left_move hw ?_ rfl (Nat.le_refl _) rfl
        have := length_visitOrder_le (p.context.adjlist v)
        unfold Worker.left
        simp only [hpc, hn, hc, List.length_cons, List.length_nil]
        omega
      | nil =>
        rw [workerStep_endLevel hpc hn hc] at hs
        cases hs
        refine left_move hw ?_ rfl (Nat.le_refl _) rfl
        unfold Worker.left
        simp only [hpc, hn, hc, List.length_nil]
        omega
  | done => simp only [workerStep, hpc] at hs; cases hs

theorem left_main (hs : mainStep n s = some s') : left p n s' < left p n s := by
  unfold mainStep at hs
  unfold left
  cases hpc : s.mainPc with
  | printed => rw [hpc] at hs; cases hs
  | join k =>
    rw [hpc] at hs
    by_cases hlt : k < n
    · simp only [if_pos hlt] at hs
      cases hd : (s.worker k).pc with
      | done =>
        simp only [hd] at hs
        cases hs
        simp only [MainPc.left]
        omega
      | _ => simp only [hd] at hs; cases hs
    · simp only [if_neg hlt] at hs
      cases hs
      simp only [MainPc.left]
      omega

/-- A worker that is not done can take a step. -/
theorem worker_moves (c : Context) (hpc : (s.worker w).pc ≠ .done) :
    ∃ s', workerStep c s w = some s' := by
  cases hp : (s.worker w).pc with
  | test =>
    simp only [workerStep, hp]
    split <;> exact ⟨_, rfl⟩
  | claim =>
    simp only [workerStep, hp]
    split <;> exact ⟨_, rfl⟩
  | level =>
    simp only [workerStep, hp]
    exact ⟨_, rfl⟩
  | visit =>
    cases hn : (s.worker w).nbrs with
    | cons v nbrs => exact ⟨_, workerStep_visit hp hn⟩
    | nil =>
      cases hc : (s.worker w).cur with
      | cons v cur => exact ⟨_, workerStep_vertex hp hn hc⟩
      | nil => exact ⟨_, workerStep_endLevel hp hn hc⟩
  | done => exact absurd hp hpc

theorem main_or_worker_moves (c : Context) (hpc : ¬ s.mainPc = .printed) :
    ∃ a s', step c n s a = some s' := by
  cases hm : s.mainPc with
  | printed => exact absurd hm hpc
  | join k =>
    by_cases hlt : k < n
    · by_cases hd : (s.worker k).pc = .done
      · refine ⟨.main, ?_⟩
        show ∃ s', mainStep n s = some s'
        unfold mainStep
        simp only [hm, if_pos hlt, hd]
        exact ⟨_, rfl⟩
      · refine ⟨.worker k, ?_⟩
        unfold step
        simp only [if_pos hlt]
        exact worker_moves c hd
    · refine ⟨.main, ?_⟩
      show ∃ s', mainStep n s = some s'
      unfold mainStep
      simp only [hm, if_neg hlt]
      exact ⟨_, rfl⟩

/-- Every run can be continued until `main` prints. -/
theorem prints (hs : (houseWorkers p.context n).Reachable s) :
    ∃ as s', (houseWorkers p.context n).runFrom s as = some s' ∧ s'.mainPc = .printed := by
  refine (houseWorkers p.context n).reaches_of_measure (Inv p n) _ (left p n) ?_ ?_ s
    (inv_of_reachable hs)
  · intro s a s' hi hs
    refine ⟨inv_step hi hs, ?_⟩
    cases a with
    | main => exact left_main hs
    | worker w =>
      change step p.context n s (.worker w) = some s' at hs
      unfold step at hs
      by_cases hw : w < n
      · simp only [if_pos hw] at hs
        exact left_worker hi hw hs
      · simp only [if_neg hw] at hs
        cases hs
  · intro s _ hf
    exact main_or_worker_moves p.context hf

end

/-- **The program prints the right answer**, with any number of workers and any interleaving.
(`main` makes at least one worker unless there is no house.) -/
theorem prints_answer (p : Problem) (n : Nat) (hn : 0 < n ∨ p.houses.length ≤ 1) :
    (∀ s, (houseWorkers p.context n).Reachable s → ∃ as s',
      (houseWorkers p.context n).runFrom s as = some s' ∧ s'.mainPc = .printed) ∧
    ∀ s, (houseWorkers p.context n).Reachable s → s.mainPc = .printed → IsAnswer p s.result := by
  refine ⟨fun s hs => prints hs, fun s hs hpc => ?_⟩
  have h := inv_of_reachable hs
  have hj : Joined p s n := by
    have := h.main
    unfold MainOk at this
    rwa [hpc] at this
  exact isAnswer_of_covers hj.sound (fun d hd => covers_of_printed h hn hpc hd)

/-- Houses at the ends of a path of three vertices. -/
def pathProblem : Problem := .ofFits [1, 3] 3 [(1, [2]), (2, [3])] (by decide)

/-- One worker takes the first house and searches; `main` joins and prints. -/
def pathRun : List Act := List.replicate 13 (.worker 0) ++ List.replicate 2 .main

theorem prints_answer_path :
    ∃ s, (houseWorkers pathProblem.context 1).run pathRun = some s ∧ s.mainPc = .printed ∧
      s.result = ⟨2, 2⟩ ∧ IsAnswer pathProblem s.result := by
  have hs : (((houseWorkers pathProblem.context 1).run pathRun).any fun s =>
      decide (s.mainPc = .printed ∧ s.result = ⟨2, 2⟩)) = true := by
    decide +kernel
  obtain ⟨s, hr, h0⟩ := (Option.any_eq_true _ _).mp hs
  obtain ⟨h1, h2⟩ := of_decide_eq_true h0
  exact ⟨s, hr, h1, h2, (prints_answer pathProblem 1 (Or.inl (by decide))).2 s ⟨pathRun, hr⟩ h1⟩

end MulticorePrac.House
