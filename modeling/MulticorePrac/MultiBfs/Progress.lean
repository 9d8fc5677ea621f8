import MulticorePrac.MultiBfs.BarrierSteps

/-!
# The workers are never stuck

`inv_of_reachable`: the barrier's invariant holds in every reachable state, from the
moment that `Run` has given the start house to worker 0.  With it, when both mutexes
are free and the search has not ended, some worker can do more than test a condition
that is false: a worker that waits for the barrier waits for a member that has not
signed, and that one does not wait for the barrier too.
-/

namespace MulticorePrac.MultiBfs

open House (Bits Problem)

section
variable {p : Problem} {start n D : Nat} {s s' : St} {w : Nat}

/-! ## Before the search begins -/

/-- The workers that were created wait. -/
def Waiting (n : Nat) (s : St) : Prop :=
  s.sync = .initial ∧ ∀ w, s.worker w = .initial ∨
    (s.worker w = Worker.initial.goto .idleFree ∧ w < n)

theorem Waiting.pc (h : Waiting n s) (w : Nat) :
    (s.worker w).pc = .idle ∨ (s.worker w).pc = .idleFree := by
  rcases h.2 w with hw | ⟨hw, -⟩
  · rw [hw]
    exact Or.inl rfl
  · rw [hw]
    exact Or.inr rfl

theorem waiting_worker (h : Waiting n s) (hw : w < n) (hs : beginWorkAt p start n s w = some s') :
    Waiting n s' := by
  have hfree : (0 : Nat) ≠ n := by omega
  have hmove : ∀ l : Worker, l = .initial ∨ l = Worker.initial.goto .idleFree →
      Waiting n (s.move w l) := by
    intro l hl
    refine ⟨h.1, forall_update (P := fun w l => l = Worker.initial ∨
      (l = Worker.initial.goto .idleFree ∧ w < n)) ?_ fun u _ => h.2 u⟩
    exact hl.imp_right fun he => ⟨he, hw⟩
  rcases h.2 w with hl | ⟨hl, -⟩
  · have hs' : s.move w (Worker.initial.goto .idleFree) = s' := by
      simpa [beginWorkAt, idleStep, hl, Worker.initial, h.1, Sync.initial] using hs
    rw [← hs']
    exact hmove _ (Or.inr rfl)
  · have hs' : s.move w ((Worker.initial.goto .idleFree).goto .idle) = s' := by
      simpa [beginWorkAt, idleStep, hl, Worker.goto, h.1, Sync.initial, hfree] using hs
    rw [← hs']
    exact hmove _ (Or.inl rfl)

theorem waiting_create (h : Waiting n s) (k : Nat) :
    Waiting n { s with
      sync := { s.sync with isBusy := Function.update s.sync.isBusy k false }
      mainPc := .create (k + 1) } := by
  refine ⟨?_, h.2⟩
  show { s.sync with isBusy := Function.update s.sync.isBusy k false } = Sync.initial
  rw [h.1]
  exact congrArg (fun f => { Sync.initial with isBusy := f }) (Function.update_eq_self k _)

/-- Worker 0 has got the start house. -/
theorem inv_begin (h : Waiting n s) (hn : 0 < n) :
    Inv n 0 (s.begin start n).sync (s.begin start n).worker := by
  have hout : ∀ (f : Pc → Bool), f .idle = false → f .idleFree = false →
      ∀ w, f (s.worker w).pc = false := by
    intro f h1 h2 w
    rcases h.pc w with hpc | hpc
    · rw [hpc, h1]
    · rw [hpc, h2]
  have hbusy : ∀ w, (s.begin start n).sync.isBusy w = decide (w = 0) := by
    intro w
    show Function.update s.sync.isBusy 0 true w = _
    rw [h.1, Function.update_apply]
    by_cases hw : w = 0 <;> simp [hw, Sync.initial]
  have hno : ∀ w, (s.worker w).pc ≠ .giveBusy := by
    intro w hc
    rcases h.pc w with hpc | hpc <;> rw [hpc] at hc <;> cases hc
  exact {
    making := fun w => by
      show s.sync.workerMakingMutex = some w ↔ (s.worker w).pc.inMaking = true
      simp [h.1, Sync.initial, hout Pc.inMaking rfl rfl w]
    doneMutex := fun w => by
      show s.sync.workerDoneBitsMutex = some w ↔ (s.worker w).pc.inDone = true
      simp [h.1, Sync.initial, hout Pc.inDone rfl rfl w]
    absent := fun w hw => by
      refine ⟨?_, by rw [hbusy]; simp; omega⟩
      rcases h.2 w with hl | ⟨-, hl⟩
      · show (s.worker w).pc = .idle
        rw [hl]
        rfl
      · omega
    ok := fun w => by
      refine ok_waiting (h.pc w) fun _ => ?_
      show Function.update s.sync.startDist 0 0 w = 0
      rw [h.1, Function.update_apply]
      by_cases hw : w = 0 <;> simp [hw, Sync.initial]
    full := fun i => by
      show (Function.update s.sync.workerDoneFullBits 0 1 0).getLsbD i = true ↔
        Expected _ s.worker i
      rw [Function.update_self, expected_iff hno, hbusy]
      have hmem : (s.worker i).pc.member (decide (i = 0)) = decide (i = 0) := by
        rcases h.pc i with hpc | hpc
        · rw [hpc]
          rfl
        · rw [hpc]
          rfl
      rw [hmem]
      simp
    done := fun i => by
      show (s.sync.workerDoneBits 0).getLsbD i = true ↔ SignedAt 0 (s.worker i)
      simp [h.1, Sync.initial, SignedAt, hout Pc.signed rfl rfl i]
    free := by
      have howes : tally (fun l : Worker => l.pc.owes) s.worker n = 0 :=
        tally_eq_zero.mpr fun w _ => hout Pc.owes rfl rfl w
      have hzero : tally (fun b => b) s.sync.isBusy n = 0 :=
        tally_eq_zero.mpr fun w _ => by rw [h.1]; rfl
      have hsum := tally_add_not (fun b => b) s.sync.isBusy n
      have hup := tally_update (fun b => !b) s.sync.isBusy hn true
      have h0 : s.sync.isBusy 0 = false := by rw [h.1]; rfl
      rw [h0] at hup
      simp only [Bool.not_true, Bool.not_false, Bool.toNat_true, Bool.toNat_false] at hup
      show tally (fun b => !b) (Function.update s.sync.isBusy 0 true) n =
        n - 1 + tally (fun l : Worker => l.pc.owes) s.worker n
      omega
    flag := fun hf => by
      have hf' : s.sync.doneBitsFlag 0 = true := hf
      rw [h.1] at hf'
      cases hf'
    lastFlag := fun hc => absurd hc (by omega)
    finished := fun w hf => by
      rcases h.pc w with hpc | hpc
      · exact absurd (hpc.symm.trans hf) (by decide)
      · exact absurd (hpc.symm.trans hf) (by decide) }

/-! ## Every reachable state -/

/-- The workers wait, or the search has begun and is at some level. -/
def BarrierInv (n : Nat) (s : St) : Prop :=
  match s.mainPc with
  | .create _ => Waiting n s
  | _ => ∃ D, Inv n D s.sync s.worker

theorem barrierInv_run (h : BarrierInv n s) (hn : 0 < n) (hs : run start n s = some s') :
    BarrierInv n s' := by
  unfold BarrierInv at h
  unfold run at hs
  cases hm : s.mainPc with
  | create k =>
    rw [hm] at h
    simp only [hm] at hs
    split at hs <;> cases hs
    · exact waiting_create h k
    · exact ⟨0, inv_begin h hn⟩
  | join k =>
    rw [hm] at h
    simp only [hm] at hs
    split at hs
    · split at hs <;> cases hs
      exact h
    · cases hs
      exact h
  | returned => simp [hm] at hs

/-- A worker changes its own variables, and does not move `Run`. -/
theorem frame_beginWorkAt (hs : beginWorkAt p start n s w = some s') :
    s'.mainPc = s.mainPc ∧ ∃ l, s'.worker = Function.update s.worker w l := by
  cases hpc : (s.worker w).pc <;>
    simp only [beginWorkAt, idleStep, levelStep, giveStep, visitStep, barrierStep, leaveStep, hpc]
      at hs <;>
    repeat' split at hs
  all_goals first | (cases hs; exact ⟨rfl, _, rfl⟩) | cases hs

theorem barrierInv_step {a : Act} (h : BarrierInv n s) (hn : 0 < n) (hn' : n ≤ 64)
    (hs : step p start n s a = some s') : BarrierInv n s' := by
  cases a with
  | main => exact barrierInv_run h hn hs
  | other j =>
    simp only [step] at hs
    split at hs <;> cases hs
    exact h
  | worker w =>
    simp only [step] at hs
    split at hs
    · next hw =>
      have hm := (frame_beginWorkAt hs).1
      unfold BarrierInv at h ⊢
      rw [hm]
      cases hmain : s.mainPc <;> rw [hmain] at h
      · exact waiting_worker h hw.1 hs
      all_goals
        obtain ⟨D, hD⟩ := h
        exact ⟨_, inv_worker hD hn' hw.1 hs⟩
    · cases hs

theorem barrierInv_of_reachable (hn : 0 < n) (hn' : n ≤ 64)
    (hr : (search p start n).Reachable s) : BarrierInv n s :=
  (search p start n).invariant (BarrierInv n) ⟨rfl, fun _ => Or.inl rfl⟩
    (fun _ _ _ h hs => barrierInv_step h hn hn' hs) hr

theorem inv_of_reachable (hn : 0 < n) (hn' : n ≤ 64) (hr : (search p start n).Reachable s)
    (hc : ∀ w < n, s.mainPc.Created w) : ∃ D, Inv n D s.sync s.worker := by
  have h := barrierInv_of_reachable hn hn' hr
  unfold BarrierInv at h
  cases hm : s.mainPc with
  | create k =>
    have h0 := hc 0 hn
    rw [hm] at h0
    exact absurd h0.1 (by omega)
  | join k => rwa [hm] at h
  | returned => rwa [hm] at h

/-! ## Who can move -/

/-- Worker `w` is in one of the two spin loops, and its condition holds it there. -/
def Spins (n : Nat) (s : St) (w : Nat) : Prop :=
  let d := (s.worker w).dist % 2
  match (s.worker w).pc with
  | .idle | .idleFree => s.sync.isBusy w = false ∧ s.sync.numFreeWorkers ≠ n
  | .waitDone | .waitFull | .waitFullAgain =>
    s.sync.workerDoneBits d &&& s.sync.workerDoneFullBits d ≠ s.sync.workerDoneFullBits d
  | _ => False

/-- A worker can move unless it has ended or waits for a mutex that is held. -/
theorem beginWorkAt_enabled (p : Problem) (start n : Nat) (s : St) (w : Nat)
    (hpc : (s.worker w).pc ≠ .finished ∧ (s.worker w).pc ≠ .fault)
    (hm : s.sync.workerMakingMutex = none ∨ (s.worker w).pc.inMaking = true ∨
      (s.worker w).pc.inDone = true)
    (hd : s.sync.workerDoneBitsMutex = none ∨ (s.worker w).pc.inMaking = true ∨
      (s.worker w).pc.inDone = true) : ∃ s', beginWorkAt p start n s w = some s' := by
  rw [← Option.isSome_iff_exists]
  cases h : (s.worker w).pc <;>
    simp only [h, Pc.inMaking, Pc.inDone, Bool.false_eq_true, or_false] at hpc hm hd <;>
    simp only [beginWorkAt, idleStep, levelStep, giveStep, visitStep, barrierStep, leaveStep, h]
  case giveLock | passLock | leaveLock => rw [if_pos hm]; rfl
  case doneLock => rw [if_pos hd]; rfl
  case finished => exact absurd rfl hpc.1
  case fault => exact absurd rfl hpc.2
  all_goals repeat' split
  all_goals rfl

theorem Covered.and_eq {y : Sync} {d : Nat} (h : Covered y d) :
    y.workerDoneBits (d % 2) &&& y.workerDoneFullBits (d % 2) = y.workerDoneFullBits (d % 2) := by
  apply BitVec.eq_of_getLsbD_eq
  intro i _
  rw [BitVec.getLsbD_and]
  cases hf : (y.workerDoneFullBits (d % 2)).getLsbD i with
  | false => rw [Bool.and_false]
  | true => rw [h i hf, Bool.and_true]

theorem Inv.lt_of_ne_idle (h : Inv n D s.sync s.worker) (hpc : (s.worker w).pc ≠ .idle) :
    w < n := by
  by_contra hw
  exact hpc (h.absent w (by omega)).1

theorem Inv.ne_fault (h : Inv n D s.sync s.worker) (w : Nat) : (s.worker w).pc ≠ .fault := by
  intro hpc
  exact (h.ok w).here hpc

/-- Inside a mutex a worker can move. -/
theorem Inv.moves_inside (h : Inv n D s.sync s.worker)
    (hin : (s.worker w).pc.inMaking = true ∨ (s.worker w).pc.inDone = true) :
    w < n ∧ ¬ Spins n s w ∧ ∃ s', beginWorkAt p start n s w = some s' := by
  have hpc : (s.worker w).pc ≠ .idle ∧ (s.worker w).pc ≠ .finished := by
    refine ⟨fun hc => ?_, fun hc => ?_⟩ <;> rw [hc] at hin <;> exact absurd hin (by decide)
  refine ⟨h.lt_of_ne_idle hpc.1, ?_, ?_⟩
  · unfold Spins
    cases hp : (s.worker w).pc <;> rw [hp] at hin <;> first | exact id | exact absurd hin (by decide)
  · exact beginWorkAt_enabled p start n s w ⟨hpc.2, h.ne_fault w⟩ (Or.inr hin) (Or.inr hin)

/-- With the making mutex free, `num_free_workers_` is right. -/
theorem Inv.numFree_eq (h : Inv n D s.sync s.worker) (hm : s.sync.workerMakingMutex = none) :
    tally (fun b => !b) s.sync.isBusy n = s.sync.numFreeWorkers := by
  have howes : tally (fun l : Worker => l.pc.owes) s.worker n = 0 := by
    refine tally_eq_zero.mpr fun w _ => Bool.eq_false_of_not_eq_true fun ho => ?_
    have := (h.making w).mpr (Pc.inMaking_of_owes ho)
    rw [hm] at this
    cases this
  have := h.free
  omega

/-- A worker that spins waits for work, or at a barrier that is not open. -/
theorem Spins.cases (h : Spins n s w) :
    (((s.worker w).pc = .idle ∨ (s.worker w).pc = .idleFree) ∧ s.sync.isBusy w = false ∧
      s.sync.numFreeWorkers ≠ n) ∨
    ((s.worker w).pc.signed = true ∧ ¬ Covered s.sync (s.worker w).dist) := by
  unfold Spins at h
  cases hpc : (s.worker w).pc <;> simp only [hpc] at h
  case idle => exact Or.inl ⟨Or.inl rfl, h⟩
  case idleFree => exact Or.inl ⟨Or.inr rfl, h⟩
  case waitDone | waitFull | waitFullAgain => exact Or.inr ⟨rfl, fun hc => h hc.and_eq⟩

theorem Inv.now_or_late (h : Inv n D s.sync s.worker) (hs : (s.worker w).pc.signed = true) :
    (s.worker w).dist = D ∨ Late D s.sync (s.worker w) := by
  have hok := h.ok w
  unfold Ok at hok
  cases hpc : (s.worker w).pc <;> simp only [hpc, Pc.signed, Bool.false_eq_true] at hs hok
  case doneUnlock | waitDone => exact hok.2
  case waitFull | waitFullAgain | passLock | passTest => exact hok.2.imp_left And.left
  case passUnlock => exact Or.inr hok.2
  all_goals exact Or.inl hok.2.1

/-- If everyone has ended or spins, everyone has ended. -/
theorem Inv.all_finished (h : Inv n D s.sync s.worker) (hm : s.sync.workerMakingMutex = none)
    (hall : ∀ w < n, (s.worker w).pc = .finished ∨ Spins n s w) (w : Nat) (hw : w < n) :
    (s.worker w).pc = .finished := by
  -- a worker that spins at the barrier has signed the level: no one is late and spins
  have hnow : ∀ u, (s.worker u).pc.signed = true → ¬ Covered s.sync (s.worker u).dist →
      (s.worker u).dist = D :=
    fun u hs hc => (h.now_or_late hs).resolve_right fun hlate => hc hlate.2
  -- so that everyone expected has signed, and no one spins there at all
  have hc : Covered s.sync D := by
    intro i hi
    rcases (h.full i).mp hi with hmem | ⟨u, hu, -⟩
    · have hlt : i < n := by
        by_contra hge
        obtain ⟨hpc, hb⟩ := h.absent i (by omega)
        rw [hpc, hb] at hmem
        cases hmem
      rcases hall i hlt with hf | hs
      · rw [hf] at hmem
        cases hmem
      · rcases hs.cases with ⟨hpc | hpc, hb, -⟩ | ⟨hs, hnc⟩
        · rw [hpc, hb] at hmem
          cases hmem
        · rw [hpc, hb] at hmem
          cases hmem
        · exact (h.done i).mpr ⟨hs, hnow i hs hnc⟩
    · have hin : (s.worker u).pc.inMaking = true := by rw [hu]; rfl
      have := (h.making u).mpr hin
      rw [hm] at this
      cases this
  have hopen : ∀ u, (s.worker u).pc.signed = true → Covered s.sync (s.worker u).dist := by
    intro u hs
    by_contra hnc
    rw [hnow u hs hnc] at hnc
    exact hnc hc
  have hfree : ∀ u < n, s.sync.isBusy u = false := by
    intro u hu
    rcases hall u hu with hf | hs
    · exact (h.ok u).here hf
    · rcases hs.cases with ⟨-, hb, -⟩ | ⟨hs, hnc⟩
      · exact hb
      · exact absurd (hopen u hs) hnc
  have hcount : s.sync.numFreeWorkers = n := by
    rw [← h.numFree_eq hm]
    have hsum := tally_add_not (fun b => b) s.sync.isBusy n
    have hzero : tally (fun b => b) s.sync.isBusy n = 0 := tally_eq_zero.mpr hfree
    omega
  rcases hall w hw with hf | hs
  · exact hf
  · rcases hs.cases with ⟨-, -, hne⟩ | ⟨hs, hnc⟩
    · exact absurd hcount hne
    · exact absurd (hopen w hs) hnc

end

/-- **The barrier never gets stuck**: once all workers are created and until all have returned,
one of them can do more than test a condition again or wait for a mutex.  While the making mutex
is free, `num_free_workers_` is the number of workers that are not busy. -/
theorem barrier_never_stuck (p : Problem) (start n : Nat) (hn : 0 < n) (hn' : n ≤ 64) (s : St)
    (hr : (search p start n).Reachable s) (hc : ∀ w < n, s.mainPc.Created w) :
    ((∃ w < n, (s.worker w).pc ≠ .finished) →
      ∃ w < n, ¬ Spins n s w ∧ ∃ s', (search p start n).step s (.worker w) = some s') ∧
    (s.sync.workerMakingMutex = none →
      s.sync.numFreeWorkers = ((Finset.range n).filter fun w => s.sync.isBusy w = false).card) := by
  obtain ⟨D, h⟩ := inv_of_reachable hn hn' hr hc
  have hstep : ∀ w s', w < n → beginWorkAt p start n s w = some s' →
      (search p start n).step s (.worker w) = some s' := by
    intro w s' hw hs
    show (if w < n ∧ s.mainPc.Created w then beginWorkAt p start n s w else none) = some s'
    rw [if_pos ⟨hw, hc w hw⟩, hs]
  refine ⟨fun hlive => ?_, fun hm => ?_⟩
  · by_cases hm : ∃ u, s.sync.workerMakingMutex = some u
    · obtain ⟨u, hu⟩ := hm
      obtain ⟨hlt, hns, s', hs⟩ := h.moves_inside (Or.inl ((h.making u).mp hu))
      exact ⟨u, hlt, hns, s', hstep u s' hlt hs⟩
    · by_cases hd : ∃ u, s.sync.workerDoneBitsMutex = some u
      · obtain ⟨u, hu⟩ := hd
        obtain ⟨hlt, hns, s', hs⟩ := h.moves_inside (Or.inr ((h.doneMutex u).mp hu))
        exact ⟨u, hlt, hns, s', hstep u s' hlt hs⟩
      · have hm' := Option.eq_none_iff_forall_ne_some.mpr fun u hu => hm ⟨u, hu⟩
        have hd' := Option.eq_none_iff_forall_ne_some.mpr fun u hu => hd ⟨u, hu⟩
        by_contra hcon
        obtain ⟨w, hw, hne⟩ := hlive
        refine hne (h.all_finished hm' (fun u hu => ?_) w hw)
        by_cases hf : (s.worker u).pc = .finished
        · exact Or.inl hf
        · refine Or.inr (Classical.byContradiction fun hns => hcon ?_)
          obtain ⟨s', hs⟩ := beginWorkAt_enabled p start n s u ⟨hf, h.ne_fault u⟩ (Or.inl hm')
            (Or.inl hd')
          exact ⟨u, hu, hns, s', hstep u s' hu hs⟩
  · rw [← h.numFree_eq hm, tally_eq_card]
    congr 1
    ext w
    simp

/-- Two ways out of vertex 1, and a house behind one of them. -/
def forkProblem : Problem := .ofFits [1, 4] 4 [(1, [2, 3]), (2, [4])] (by decide)

/-- Worker 0 gives a vertex to worker 1 and waits for it at the barrier. -/
def waitingRun : List Act := List.replicate 2 .main ++ List.replicate 43 (.worker 0)

theorem barrier_never_stuck_waitingRun :
    ∃ s, (search forkProblem 1 2).run waitingRun = some s ∧ Spins 2 s 0 ∧
      ∃ w < 2, ¬ Spins 2 s w ∧ ∃ s', (search forkProblem 1 2).step s (.worker w) = some s' := by
  have hs : (((search forkProblem 1 2).run waitingRun).any fun s =>
      decide (s.mainPc = .join 0 ∧ (s.worker 0).pc = .waitDone ∧ (s.worker 0).dist = 1 ∧
        s.sync.workerDoneBits 1 &&& s.sync.workerDoneFullBits 1 ≠
          s.sync.workerDoneFullBits 1)) = true := by
    decide +kernel
  obtain ⟨s, hr, h0⟩ := (Option.any_eq_true _ _).mp hs
  obtain ⟨hmain, hpc, hdist, hne⟩ := of_decide_eq_true h0
  have hspins : Spins 2 s 0 := by
    unfold Spins
    rw [hpc, hdist]
    exact hne
  refine ⟨s, hr, hspins, ?_⟩
  refine (barrier_never_stuck forkProblem 1 2 (by decide) (by decide) s ⟨waitingRun, hr⟩ ?_).1
    ⟨0, by decide, by rw [hpc]; decide⟩
  intro w _
  rw [hmain]
  trivial

end MulticorePrac.MultiBfs
