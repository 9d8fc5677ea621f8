import MulticorePrac.ListSet.FineLinear
import MulticorePrac.ListSet.OptLinear

/-!
# Lab11: the lock-based lists have no deadlock

Both lists take the mutexes of nodes in ascending order of their ranks: the fine-grained
list while it goes along the path, the optimistic one for the two nodes that it has found.
Those may have been taken out, or have the key of another node; but a link always leads to
a higher rank, also that of a node that was taken out (`Trail`), and no rank is above that of
the tail.
-/

namespace MulticorePrac.ListSet

open Relation

/-! ## The fine-grained list -/

namespace Fine

/-- The node whose mutex a thread is to take next. -/
def Thread.wants (l : Thread) : Option Nat :=
  match l.pc with
  | .lockHead => some HEAD
  | .lockCurr => some l.curr
  | _ => none

section
variable {s : St} {p : List Nat} {S : Finset Int} {t : Nat}

theorem Inv.lockOrder (h : Inv s p S) :
    LockOrder Thread.wants Thread.Holds s.thread (rank s.key) INT_MAX := by
  refine LockOrder.of_wants fun t x hx => ?_
  have hplaced := h.placed t
  unfold Placed at hplaced
  unfold Thread.wants at hx
  cases hpc : (s.thread t).pc <;> rw [hpc] at hx hplaced <;> cases hx
  case lockHead =>
    exact ⟨fun y hy => absurd hy (not_twoLocks (by rw [hpc]; rfl) (by rw [hpc]; rfl) y),
      h.path.rank_le h.path.head_mem⟩
  case lockCurr =>
    refine ⟨fun y hy => ?_, h.path.rank_le hplaced.1.right_mem⟩
    rw [eq_prev_of_twoLocks (by rw [hpc]; rfl) hy]
    exact h.path.asc.lt_of_follows hplaced.1

/-- A thread in an operation that does not wait for a mutex can take its next step, or is about to
call `malloc`. -/
theorem exists_step (hidle : (s.thread t).pc ≠ .idle)
    (hfree : ∀ x, (s.thread t).wants = some x → s.owner x = none) :
    (s.thread t).pc = .malloc ∨ ∃ s', machine.step s (.run t) = some s' := by
  show _ ∨ ∃ s', runStep s t = some s'
  unfold Thread.wants at hfree
  unfold runStep
  cases hpc : (s.thread t).pc <;> simp only [hpc] at hfree ⊢
  case idle => exact absurd hpc hidle
  case malloc => exact Or.inl trivial
  case lockHead | lockCurr => exact Or.inr (State.exists_lock (hfree _ rfl) _ _)
  all_goals exact Or.inr ⟨_, rfl⟩

theorem Inv.deadlock_free (h : Inv s p S) :
    (∀ t, ¬TransGen (WaitsFor Thread.wants s.owner s.thread) t t) ∧
    ∀ t, (s.thread t).pc ≠ .idle → ∃ u, (s.thread u).pc ≠ .idle ∧
      (∀ v, ¬WaitsFor Thread.wants s.owner s.thread u v) ∧
      ((s.thread u).pc = .malloc ∨ ∃ s', machine.step s (.run u) = some s') :=
  ListSet.deadlock_free h.lockOrder h.owner
    (fun l x hx (hpc : l.pc = .idle) => not_twoLocks (by rw [hpc]; rfl) (by rw [hpc]; rfl) x hx)
    fun _ => exists_step

end

end Fine

/-! ## The optimistic list -/

namespace Opt

/-- The node whose mutex a thread is to take next. -/
def Thread.wants (l : Thread) : Option Nat :=
  match l.pc with
  | .lockPrev => some l.prev
  | .lockCurr => some l.curr
  | _ => none

section
variable {s : St} {p : List Nat} {S : Finset Int} {age : Nat → Nat} {now : Nat} {t : Nat}

/-- No node that is or was in the list comes after the tail. -/
theorem Inv.rank_le (h : Inv s p S age now) {x : Nat} (hx : 0 < age x) :
    rank s.key x ≤ INT_MAX :=
  h.trail.rank_le (fun _ ha => h.path.rank_le ha) hx

theorem Inv.lockOrder (h : Inv s p S age now) :
    LockOrder Thread.wants Thread.Holds s.thread (rank s.key) INT_MAX := by
  refine LockOrder.of_wants fun t x hx => ?_
  have hplaced := h.placed t
  unfold Placed at hplaced
  unfold Thread.wants at hx
  cases hpc : (s.thread t).pc <;> rw [hpc] at hx hplaced <;> cases hx
  case lockPrev =>
    exact ⟨fun y hy => absurd hy (not_twoLocks (by rw [hpc]; rfl) (by rw [hpc]; rfl) y),
      h.rank_le hplaced.prev⟩
  case lockCurr =>
    refine ⟨fun y hy => ?_, h.rank_le hplaced.curr⟩
    rw [eq_prev_of_twoLocks (by rw [hpc]; rfl) hy]
    exact hplaced.asc

theorem exists_step (hidle : (s.thread t).pc ≠ .idle)
    (hfree : ∀ x, (s.thread t).wants = some x → s.owner x = none) :
    (s.thread t).pc = .malloc ∨ ∃ s', machine.step s (.run t) = some s' := by
  show _ ∨ ∃ s', runStep s t = some s'
  unfold Thread.wants at hfree
  unfold runStep
  cases hpc : (s.thread t).pc <;> simp only [hpc] at hfree ⊢
  case idle => exact absurd hpc hidle
  case malloc => exact Or.inl trivial
  case lockPrev | lockCurr => exact Or.inr (State.exists_lock (hfree _ rfl) _ _)
  all_goals exact Or.inr ⟨_, rfl⟩

theorem Inv.deadlock_free (h : Inv s p S age now) :
    (∀ t, ¬TransGen (WaitsFor Thread.wants s.owner s.thread) t t) ∧
    ∀ t, (s.thread t).pc ≠ .idle → ∃ u, (s.thread u).pc ≠ .idle ∧
      (∀ v, ¬WaitsFor Thread.wants s.owner s.thread u v) ∧
      ((s.thread u).pc = .malloc ∨ ∃ s', machine.step s (.run u) = some s') :=
  ListSet.deadlock_free h.lockOrder h.owner
    (fun l x hx (hpc : l.pc = .idle) => not_twoLocks (by rw [hpc]; rfl) (by rw [hpc]; rfl) x hx)
    fun _ => exists_step

end

end Opt

/-! ## Deadlock freedom -/

/-- In every reachable state of either list no threads wait for each other in a cycle; and if an
operation is in progress, then a thread is in an operation that does not wait for a mutex another
one has: it can take its next step, or is about to call `malloc`. -/
theorem lists_deadlock_free :
    (∀ s, Fine.machine.Reachable s →
      (∀ t, ¬TransGen (WaitsFor Fine.Thread.wants s.owner s.thread) t t) ∧
      ∀ t, (s.thread t).pc ≠ .idle → ∃ u, (s.thread u).pc ≠ .idle ∧
        (∀ v, ¬WaitsFor Fine.Thread.wants s.owner s.thread u v) ∧
        ((s.thread u).pc = .malloc ∨ ∃ s', Fine.machine.step s (.run u) = some s')) ∧
    ∀ s, Opt.machine.Reachable s →
      (∀ t, ¬TransGen (WaitsFor Opt.Thread.wants s.owner s.thread) t t) ∧
      ∀ t, (s.thread t).pc ≠ .idle → ∃ u, (s.thread u).pc ≠ .idle ∧
        (∀ v, ¬WaitsFor Opt.Thread.wants s.owner s.thread u v) ∧
        ((s.thread u).pc = .malloc ∨ ∃ s', Opt.machine.step s (.run u) = some s') := by
  constructor
  · intro s hs
    obtain ⟨p, S, h, -⟩ := Fine.inv_of_reachable hs
    exact h.deadlock_free
  · intro s hs
    obtain ⟨p, S, age, now, h, -⟩ := Opt.good_of_reachable hs
    exact h.deadlock_free

/-- Thread 1 of the fine-grained list waits for thread 0, which has the mutex of the head. -/
theorem lists_deadlock_free_waiting : ∃ s, Fine.machine.run
    [.call 0 (.contains 5), .call 1 (.remove 5), .run 0] = some s ∧
    WaitsFor Fine.Thread.wants s.owner s.thread 1 0 ∧
    ∃ u, ∀ v, ¬WaitsFor Fine.Thread.wants s.owner s.thread u v := by
  have hs : ((Fine.machine.run [.call 0 (.contains 5), .call 1 (.remove 5), .run 0]).any fun s =>
      decide ((s.thread 1).pc ≠ .idle ∧ (s.thread 1).wants = some HEAD ∧
        s.owner HEAD = some 0)) = true := by decide +kernel
  obtain ⟨s, hrun, hp⟩ := (Option.any_eq_true _ _).mp hs
  obtain ⟨hidle, hwants, howner⟩ := of_decide_eq_true hp
  obtain ⟨u, -, hfree, -⟩ := (lists_deadlock_free.1 s ⟨_, hrun⟩).2 1 hidle
  exact ⟨s, hrun, ⟨HEAD, hwants, howner⟩, u, hfree⟩

end MulticorePrac.ListSet
