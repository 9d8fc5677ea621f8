import MulticorePrac.ListSet.Program
import MulticorePrac.ListSet.OptLinear

/-!
# Lab11: the program with the optimistic list

The optimistic list is a set too, in every interleaving, so with it as well a thread does not
notice the others when no key is used by two threads: also not when a validation fails, and
the operation starts again.  As for the other list, the keys of the workload are below
`INT_MAX` (`Input`), and the mutexes of the head and the tail work (`listInit`).
-/

namespace MulticorePrac.ListSet.Opt

def impl : Impl Thread := ⟨machine, fun l => decide (l.pc = .idle), Thread.calls⟩

section
variable {s s' : St} {t : Nat}

theorem decideStep_moved (s : St) (l : Thread) :
    impl.idle (decideStep s l) = false ∧ (decideStep s l).calls = l.calls := by
  unfold decideStep
  split
  · split <;> exact ⟨rfl, rfl⟩
  · split <;> exact ⟨rfl, rfl⟩
  · exact ⟨rfl, rfl⟩

/-- The loop of `list_validate` stays inside the operation. -/
theorem valTest_ne_idle (s : St) (l : Thread) : valTest s l ≠ .idle := by
  unfold valTest
  split
  · split <;> decide
  · decide

theorem moved_run (hs : runStep s t = some s') : ∃ l, impl.Moved s s' t l := by
  unfold runStep at hs
  cases hpc : (s.thread t).pc <;> simp only [hpc] at hs
  case idle | malloc => cases hs
  case lockPrev | lockCurr =>
    exact ⟨_, Impl.moved_of_lock hs (decide_eq_false (by rw [hpc]; decide)) rfl rfl⟩
  case test | valNext =>
    cases hs
    refine ⟨_, decide_eq_false (by rw [hpc]; decide), rfl, Or.inl ⟨decide_eq_false ?_, rfl, rfl⟩⟩
    dsimp only
    split <;> decide
  case valTest =>
    cases hs
    exact ⟨_, decide_eq_false (by rw [hpc]; decide), rfl, Or.inl ⟨decide_eq_false (valTest_ne_idle s _), rfl, rfl⟩⟩
  case decide =>
    cases hs
    obtain ⟨h1, h2⟩ := decideStep_moved s (s.thread t)
    exact ⟨_, decide_eq_false (by rw [hpc]; decide), rfl, Or.inl ⟨h1, h2, rfl⟩⟩
  case ret =>
    cases hs
    exact ⟨_, decide_eq_false (by rw [hpc]; decide), rfl, Or.inr ⟨_, rfl, rfl, rfl⟩⟩
  all_goals
    cases hs
    exact ⟨_, decide_eq_false (by rw [hpc]; decide), rfl, Or.inl ⟨rfl, rfl, rfl⟩⟩

theorem moved_inside {a : Act} (ha : a.Inside t) (hs : step s a = some s') :
    ∃ l, impl.Moved s s' t l := by
  rcases ha with rfl | ⟨addr, junk, rfl⟩
  · exact moved_run hs
  · obtain ⟨hc, hs⟩ := Option.ite_none_right_eq_some.mp hs
    cases hs
    exact ⟨_, decide_eq_false (by rw [hc.1]; decide), rfl, Or.inl ⟨rfl, rfl, rfl⟩⟩

end

theorem isSet : impl.IsSet := by
  refine ⟨fun t => ⟨rfl, rfl⟩, rfl, fun s t op s' hs => ?_,
    fun s t a s' ha hs => moved_inside ha hs, fun s hs => ?_⟩
  · obtain ⟨hc, hs⟩ := Option.ite_none_right_eq_some.mp hs
    cases hs
    refine ⟨_, rfl, decide_eq_false ?_, rfl, rfl⟩
    dsimp only
    split <;> decide
  · obtain ⟨p, S, age, now, h, hm⟩ := good_of_reachable hs
    obtain ⟨ns, rfl, hasc, rfl⟩ := h.path.between
    refine ⟨ns, hm.linearizable, hasc, h.path.tail_notMem, fun _ => ?_⟩
    · refine List.isChain_iff_forall_rel_of_append_cons_cons.mpr fun a b l r hl => ?_
      exact h.trail.links a b (follows_iff.mpr ⟨l, r, hl⟩)

/-- In every run of the program with the optimistic list, when no key is used by two threads, every
call returns what it returns when its thread is alone; and `main` prints `correct!` exactly when
`result.txt` has the keys that the threads leave when they are alone, in ascending order. -/
theorem optimistic_results {i : Input} {s : Prog Thread} (hpart : Coarse.Partitioned i.ops)
    (hs : (program impl i).Reachable s) :
    (∀ t j r, .ret (t, j) r ∈ s.list.hist → (setObject.run ∅ (i.ops t)).2[j]? = some r) ∧
    ∀ valid, s.main = .printed valid →
      (valid = true ↔ i.result.Pairwise (· < ·) ∧ i.result.toFinset = i.expected) :=
  isSet.results hpart hs

/-- One thread that adds 5, and another that has no work. -/
def addFive : Input where
  numThread := 2
  work
    | 0 => [⟨'A', 5⟩]
    | _ => []
  result := [4]
  inRange t := by
    match t with
    | 0 => decide
    | t + 1 => exact fun w hw => by cases hw

theorem addFive_partitioned : Coarse.Partitioned addFive.ops := by
  have hnone : ∀ t, t ≠ 0 → addFive.ops t = [] := by
    intro t ht
    obtain ⟨u, rfl⟩ := Nat.exists_eq_succ_of_ne_zero ht
    unfold Input.ops
    split <;> rfl
  intro t u htu op hop op' hop'
  by_cases ht : t = 0
  · rw [hnone u (by omega)] at hop'
    cases hop'
  · rw [hnone t ht] at hop
    cases hop

/-- `main` finds another key than the one of `result.txt`. -/
theorem optimistic_results_addFive : Coarse.Partitioned addFive.ops ∧
    ∃ s, (program impl addFive).run (List.replicate 3 .main ++ [.next 0, .malloc 0 3 0] ++
        List.replicate 12 (.run 0) ++ List.replicate 4 .main) = some s ∧
      s.main = .printed false ∧
      ¬(addFive.result.Pairwise (· < ·) ∧ addFive.result.toFinset = addFive.expected) := by
  have hs : (((program impl addFive).run (List.replicate 3 .main ++ [.next 0, .malloc 0 3 0] ++
      List.replicate 12 (.run 0) ++ List.replicate 4 .main)).any fun s =>
        decide (s.main = .printed false)) = true := by decide +kernel
  obtain ⟨s, hrun, hp⟩ := (Option.any_eq_true _ _).mp hs
  have hmain := of_decide_eq_true hp
  have hright := (optimistic_results addFive_partitioned ⟨_, hrun⟩).2 false hmain
  exact ⟨addFive_partitioned, s, hrun, hmain, fun hc => absurd (hright.mpr hc) (by decide)⟩

end MulticorePrac.ListSet.Opt
