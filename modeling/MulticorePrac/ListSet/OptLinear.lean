import MulticorePrac.ListSet.OptSteps
import Mathlib.Data.List.Chain

/-!
# Lab11: the optimistic list is a set

`list_add` and `list_remove` take effect at their write of `prev->next`, and an operation
that changes nothing at its comparison with `curr->key` after the validation, while it holds
both locks.  With these steps every run is matched by one of the atomic set.
-/

namespace MulticorePrac.ListSet.Opt

/-- The run so far is matched by one of the atomic set that has come to `S`. -/
def St.Matches (s : St) (S : Finset Int) : Prop :=
  Tracks setObject Thread.calls Thread.phase s.hist s.thread S

/-- The invariant, and a run of the atomic set. -/
def Good (s : St) : Prop := ∃ p S age now, Inv s p S age now ∧ s.Matches S

section
variable {s s' : St} {p : List Nat} {S : Finset Int} {age : Nat → Nat} {now : Nat} {t : Nat}

theorem phase_running {pc : Pc} (hpc : (s.thread t).pc = pc) (h : pc ≠ .idle ∧ pc.after = false) :
    (s.thread t).phase = .running (s.thread t).op := by
  unfold Thread.phase
  rw [hpc]
  cases pc with
  | idle => exact absurd rfl h.1
  | unlockPrev | unlockCurr | ret => cases h.2
  | _ => rfl

theorem phase_decided {pc : Pc} (hpc : (s.thread t).pc = pc) (h : pc.after = true) :
    (s.thread t).phase = .decided (s.thread t).op (s.thread t).ret := by
  unfold Thread.phase
  rw [hpc]
  cases pc <;> first | rfl | cases h

/-- A step of an operation. -/
theorem good_run (h : Inv s p S age now) (hm : s.Matches S) (hs : runStep s t = some s') :
    Good s' := by
  unfold runStep at hs
  cases hpc : (s.thread t).pc with
  | idle => simp [hpc] at hs
  | malloc => simp [hpc] at hs
  | readHead =>
    simp only [hpc] at hs
    cases hs
    exact ⟨p, S, age, now, inv_readHead h hpc,
      hm.stutter rfl (phase_running hpc (by decide)).symm⟩
  | test =>
    simp only [hpc] at hs
    cases hs
    refine ⟨p, S, age, now, inv_test h hpc, hm.stutter rfl ?_⟩
    rw [phase_running hpc (by decide)]
    split <;> rfl
  | advance =>
    simp only [hpc] at hs
    cases hs
    exact ⟨p, S, age, now, inv_advance h hpc,
      hm.stutter rfl (phase_running hpc (by decide)).symm⟩
  | lockPrev =>
    simp only [hpc, State.lock] at hs
    split at hs
    · rename_i hfree
      cases hs
      exact ⟨p, S, age, now, inv_lockPrev h hpc hfree,
        hm.stutter rfl (phase_running hpc (by decide)).symm⟩
    · cases hs
  | lockCurr =>
    simp only [hpc, State.lock] at hs
    split at hs
    · rename_i hfree
      cases hs
      exact ⟨p, S, age, now, inv_lockCurr h hpc hfree,
        hm.stutter rfl (phase_running hpc (by decide)).symm⟩
    · cases hs
  | valTest =>
    simp only [hpc] at hs
    cases hs
    refine ⟨p, S, age, now, inv_valTest h hpc, hm.stutter rfl ?_⟩
    rw [phase_running hpc (by decide)]
    unfold valTest
    split
    · split <;> rfl
    · rfl
  | valStep =>
    simp only [hpc] at hs
    cases hs
    exact ⟨p, S, age, now, inv_valStep h hpc,
      hm.stutter rfl (phase_running hpc (by decide)).symm⟩
  | valNext =>
    simp only [hpc] at hs
    cases hs
    refine ⟨p, S, age, now, inv_valNext h hpc, hm.stutter rfl ?_⟩
    rw [phase_running hpc (by decide)]
    split <;> rfl
  | failPrev =>
    simp only [hpc] at hs
    cases hs
    exact ⟨p, S, age, now, inv_failPrev h hpc,
      hm.stutter rfl (phase_running hpc (by decide)).symm⟩
  | failCurr =>
    simp only [hpc] at hs
    cases hs
    exact ⟨p, S, age, now, inv_failCurr h hpc,
      hm.stutter rfl (phase_running hpc (by decide)).symm⟩
  | decide =>
    simp only [hpc] at hs
    cases hs
    obtain ⟨hinv, hcalls, hphase | ⟨hphase, hset⟩⟩ := inv_decide h hpc
    · exact ⟨p, S, age, now, hinv,
        hm.stutter hcalls (hphase.trans (phase_running hpc (by decide)).symm)⟩
    · exact ⟨p, S, age, now, hinv,
        hm.commit (phase_running hpc (by decide)) hcalls (Prod.ext hset rfl) hphase⟩
  | linkNode =>
    simp only [hpc] at hs
    cases hs
    exact ⟨p, S, age, now, inv_linkNode h hpc,
      hm.stutter rfl (phase_running hpc (by decide)).symm⟩
  | linkPrev =>
    simp only [hpc] at hs
    cases hs
    obtain ⟨p', age', hinv⟩ := inv_linkPrev h hpc
    have hplaced := h.placed t
    simp only [Placed, hpc] at hplaced
    have happly := apply_add_of_notMem
      (mt (h.mem_iff (by rw [hpc]; decide) hplaced.1).mp hplaced.2.1)
    rw [← hplaced.2.2.1] at happly
    exact ⟨p', _, age', now, hinv, hm.commit (phase_running hpc (by decide)) rfl happly rfl⟩
  | readUnlink =>
    simp only [hpc] at hs
    cases hs
    exact ⟨p, S, age, now, inv_readUnlink h hpc,
      hm.stutter rfl (phase_running hpc (by decide)).symm⟩
  | unlink =>
    simp only [hpc] at hs
    cases hs
    obtain ⟨p', age', hinv⟩ := inv_unlink h hpc
    have hplaced := h.placed t
    simp only [Placed, hpc] at hplaced
    have happly := apply_remove_of_mem
      ((h.mem_iff (by rw [hpc]; decide) hplaced.1).mpr hplaced.2.1)
    rw [← hplaced.2.2.1] at happly
    exact ⟨p', _, age', now + 1, hinv, hm.commit (phase_running hpc (by decide)) rfl happly rfl⟩
  | unlockPrev =>
    simp only [hpc] at hs
    cases hs
    exact ⟨p, S, age, now, inv_unlockPrev h hpc, hm.stutter rfl (phase_decided hpc rfl).symm⟩
  | unlockCurr =>
    simp only [hpc] at hs
    cases hs
    exact ⟨p, S, age, now, inv_unlockCurr h hpc, hm.stutter rfl (phase_decided hpc rfl).symm⟩
  | ret =>
    simp only [hpc] at hs
    cases hs
    exact ⟨p, S, age, now, inv_ret h hpc, hm.ret (phase_decided hpc rfl) rfl rfl⟩

theorem good_step {a : Act} (h : Good s) (hs : step s a = some s') : Good s' := by
  obtain ⟨p, S, age, now, h, hm⟩ := h
  cases a with
  | run t => exact good_run h hm hs
  | call t op =>
    simp only [step, callStep] at hs
    split at hs
    · rename_i hc
      cases hs
      have hidle : (s.thread t).phase = .idle := by
        unfold Thread.phase
        rw [hc.1]
      refine ⟨p, S, age, now, inv_call h hc.1 hc.2, hm.call hidle rfl ?_⟩
      unfold Thread.phase
      dsimp only
      split <;> rename_i hpc <;> (split at hpc <;> first | cases hpc | rfl)
    · cases hs
  | malloc t addr junk =>
    simp only [step, mallocStep] at hs
    split at hs
    · rename_i hc
      cases hs
      exact ⟨p, S, age, now, inv_malloc h hc.1 hc.2.1,
        hm.stutter rfl (phase_running hc.1 (by decide)).symm⟩
    · cases hs

end

/-- At the start the two sentinels are on the path. -/
theorem inv_initial :
    Inv initial [HEAD, TAIL] ∅ (fun x => if x = HEAD ∨ x = TAIL then 1 else 0) 1 := by
  refine ⟨Threads.start (fun _ => rfl) (fun _ => not_twoLocks rfl rfl) (fun t x hx => ?_)
    (fun _ => trivial) fun _ => .of_idle rfl rfl, isPath_listInit _,
    ⟨Nat.one_pos, fun x => ?_, fun x => ?_, fun x y hf => ?_, fun x h0 hlt => ?_⟩, rfl, fun x hx => ?_⟩
  · cases hx.1
  · split <;> omega
  · rw [List.mem_cons, List.mem_singleton]
    constructor
    · exact fun hc => if_pos hc
    · intro hc
      split at hc
      · assumption
      · omega
  · rcases hf with ⟨rfl, rfl⟩ | hf
    · rfl
    · cases hf
  · exact absurd hlt (Nat.not_lt.mpr h0)
  · split at hx
    · rename_i hc
      rcases hc with rfl | rfl <;> rfl
    · omega

theorem good_of_reachable {s : St} (hs : machine.Reachable s) : Good s :=
  machine.invariant Good
    ⟨_, _, _, _, inv_initial, Tracks.initial (fun _ => rfl) (fun _ => rfl)⟩
    (fun _ _ _ => good_step) hs

/-- In every reachable state the history is linearizable to the set of the keys between the
sentinels, and these ascend strictly; when no operation is in progress, all of the history has
completed. -/
theorem optimistic_linearizable {s : St} (hs : machine.Reachable s) :
    (∃ ns, Linearizable setObject s.hist (ns.map s.key).toFinset ∧
      (HEAD :: (ns ++ [TAIL])).IsChain (fun a b => s.next a = b) ∧
      (ns.map s.key).Pairwise (· < ·)) ∧
    ((∀ t, (s.thread t).pc = .idle) → ∀ id op, .call id op ∈ s.hist → ∃ r, .ret id r ∈ s.hist) := by
  obtain ⟨p, S, age, now, h, hm⟩ := good_of_reachable hs
  obtain ⟨ns, rfl, hasc, rfl⟩ := h.path.between
  refine ⟨⟨ns, hm.linearizable, List.isChain_iff_forall_rel_of_append_cons_cons.mpr ?_, hasc⟩,
    fun hidle id op hcall => ?_⟩
  · intro a b l r hl
    exact h.trail.links a b (follows_iff.mpr ⟨l, r, hl⟩)
  · refine hm.returned (fun t => ?_) hcall
    unfold Thread.phase
    rw [hidle t]

/-- Thread 0 goes to the place of 5 in the empty list; thread 1 adds 3 there.  So the validation of
thread 0 fails, and it starts again. -/
def retryRun : List Act :=
  [.call 0 (.add 5), .malloc 0 3 0, .run 0, .run 0, .call 1 (.add 3), .malloc 1 4 0] ++
    List.replicate 12 (.run 1) ++ List.replicate 22 (.run 0)

theorem optimistic_linearizable_retry : ∃ s, machine.run retryRun = some s ∧
    s.hist = [.call (0, 0) (.add 5), .call (1, 0) (.add 3), .ret (1, 0) true, .ret (0, 0) true] ∧
    s.next HEAD = 4 ∧ s.next 4 = 3 ∧ s.next 3 = TAIL ∧
    ∃ ns, Linearizable setObject s.hist (ns.map s.key).toFinset ∧
      (HEAD :: (ns ++ [TAIL])).IsChain (fun a b => s.next a = b) ∧
      (ns.map s.key).Pairwise (· < ·) := by
  have hs : ((machine.run retryRun).any fun s => decide (s.hist =
      [.call (0, 0) (.add 5), .call (1, 0) (.add 3), .ret (1, 0) true, .ret (0, 0) true] ∧
      s.next HEAD = 4 ∧ s.next 4 = 3 ∧ s.next 3 = TAIL)) = true := by decide +kernel
  obtain ⟨s, hrun, hp⟩ := (Option.any_eq_true _ _).mp hs
  obtain ⟨hhist, h1, h2, h3⟩ := of_decide_eq_true hp
  exact ⟨s, hrun, hhist, h1, h2, h3, (optimistic_linearizable ⟨_, hrun⟩).1⟩

end MulticorePrac.ListSet.Opt
