import Mathlib.Data.Rat.Floor
import Mathlib.Algebra.Order.Floor.Semifield
import Mathlib.Tactic.Linarith

/-!
# Project1: how `main` divides the cores over the house workers (`main.cpp`)

With more cores than houses there is one worker for each house.  Every worker gets
`⌈num_cores / houses⌉` threads, and a loop takes one thread away from worker 0, 1, 2, …
until the total is `num_cores`.  The loop has no bound on its index: it stops by the
total.  The quotient is taken exactly; no number is larger than `num_cores + houses`.
-/

namespace MulticorePrac.House

/-- `ceil((float)num_cores / g_context.houses.size())`. -/
def maxThreadsPerWorker (numCores houses : Nat) : Nat := ⌈(numCores : ℚ) / houses⌉₊

/-- The loop `for (int i = 0; num_threads > num_cores; i++)`; `none` is an index outside of the
vector. -/
def decrementFrom (numCores : Nat) : Nat → Nat → List Nat → Option (List Nat)
  | 0, _, arr => some arr
  | numThreads + 1, i, arr =>
    if numThreads + 1 > numCores then
      match arr[i]? with
      | none => none
      | some k => decrementFrom numCores numThreads (i + 1) (arr.set i (k - 1))
    else some arr

/-- `num_threads_per_worker_arr`, lines 121-136. -/
def numThreadsPerWorkerArr (numCores houses : Nat) : Option (List Nat) :=
  if numCores ≤ houses then some (List.replicate numCores 1)
  else
    let m := maxThreadsPerWorker numCores houses
    decrementFrom numCores (m * houses) 0 (List.replicate houses m)

section
variable {numCores houses : Nat}

theorem le_maxThreads_mul (h : 0 < houses) :
    numCores ≤ maxThreadsPerWorker numCores houses * houses := by
  have hq : (0 : ℚ) < houses := by exact_mod_cast h
  have hle := Nat.le_ceil ((numCores : ℚ) / houses)
  rw [div_le_iff₀ hq] at hle
  exact_mod_cast hle

theorem maxThreads_mul_lt (h : 0 < houses) :
    maxThreadsPerWorker numCores houses * houses < numCores + houses := by
  have hq : (0 : ℚ) < houses := by exact_mod_cast h
  have hlt : (maxThreadsPerWorker numCores houses : ℚ) < (numCores : ℚ) / houses + 1 :=
    Nat.ceil_lt_add_one (by positivity)
  have hmul : (maxThreadsPerWorker numCores houses : ℚ) * houses < numCores + houses := by
    calc (maxThreadsPerWorker numCores houses : ℚ) * houses
        < ((numCores : ℚ) / houses + 1) * houses := mul_lt_mul_of_pos_right hlt hq
      _ = numCores + houses := by rw [add_mul, div_mul_cancel₀ _ hq.ne', one_mul]
  exact_mod_cast hmul

/-- The loop from index `a` on, with `k` threads too many and `b` entries not yet touched. -/
theorem decrementFrom_spec (numCores m : Nat) (k a b : Nat) (hk : k ≤ b) :
    decrementFrom numCores (numCores + k) a (List.replicate a (m - 1) ++ List.replicate b m) =
      some (List.replicate (a + k) (m - 1) ++ List.replicate (b - k) m) := by
  induction k generalizing a b with
  | zero =>
    cases numCores with
    | zero => rfl
    | succ c => simp [decrementFrom]
  | succ k ih =>
    obtain ⟨b, rfl⟩ : ∃ b', b = b' + 1 := ⟨b - 1, by omega⟩
    rw [← Nat.add_assoc, decrementFrom, if_pos (by omega)]
    have hget : (List.replicate a (m - 1) ++ List.replicate (b + 1) m)[a]? = some m := by
      rw [List.getElem?_append_right (by simp)]
      simp
    have hset : (List.replicate a (m - 1) ++ List.replicate (b + 1) m).set a (m - 1) =
        List.replicate (a + 1) (m - 1) ++ List.replicate b m := by
      rw [List.set_append_right _ _ (by simp), List.replicate_succ (n := b),
        List.replicate_succ' (n := a), List.append_assoc]
      simp
    rw [hget]
    simp only [hset]
    rw [ih (a + 1) b (by omega)]
    rw [show a + 1 + k = a + (k + 1) by omega, show b + 1 - (k + 1) = b - k by omega]

/-- The vector: the first `⌈num_cores / houses⌉ * houses - num_cores` workers have one thread
less than the others. -/
theorem numThreadsPerWorkerArr_eq (h : 0 < houses) (hlt : houses < numCores) :
    let m := maxThreadsPerWorker numCores houses
    let k := m * houses - numCores
    k < houses ∧ numThreadsPerWorkerArr numCores houses =
      some (List.replicate k (m - 1) ++ List.replicate (houses - k) m) := by
  intro m k
  have h1 : numCores ≤ m * houses := le_maxThreads_mul h
  have h2 : m * houses < numCores + houses := maxThreads_mul_lt h
  have hk : k < houses := by omega
  refine ⟨hk, ?_⟩
  have hspec := decrementFrom_spec numCores m k 0 houses (Nat.le_of_lt hk)
  rw [show numCores + k = m * houses by omega, Nat.zero_add] at hspec
  unfold numThreadsPerWorkerArr
  rw [if_neg (by omega)]
  exact hspec

theorem one_lt_maxThreads (h : 0 < houses) (hlt : houses < numCores) :
    1 < maxThreadsPerWorker numCores houses := by
  have h1 : numCores ≤ maxThreadsPerWorker numCores houses * houses := le_maxThreads_mul h
  by_contra hm
  have hle : maxThreadsPerWorker numCores houses * houses ≤ 1 * houses :=
    Nat.mul_le_mul_right _ (by omega)
  omega

/-- No worker has more than `t` threads exactly when there are at most `t` cores for a house. -/
theorem numThreadsPerWorkerArr_le_iff (numCores : Nat) (h : 0 < houses) {t : Nat} (ht : 1 ≤ t) :
    ∃ arr, numThreadsPerWorkerArr numCores houses = some arr ∧
      ((∀ k ∈ arr, k ≤ t) ↔ numCores ≤ t * houses) ∧ ∀ k ∈ arr, 1 ≤ k := by
  by_cases hlt : houses < numCores
  · obtain ⟨hk, harr⟩ := numThreadsPerWorkerArr_eq h hlt
    have hm := one_lt_maxThreads h hlt
    have hmax : maxThreadsPerWorker numCores houses ≤ t ↔ numCores ≤ t * houses := by
      unfold maxThreadsPerWorker
      rw [Nat.ceil_le, div_le_iff₀ (by exact_mod_cast h)]
      exact_mod_cast Iff.rfl
    refine ⟨_, harr, ⟨fun hall => hmax.mp (hall _ ?_), fun hle k hmem => ?_⟩, fun k hmem => ?_⟩
    · exact List.mem_append_right _ (List.mem_replicate.mpr ⟨by omega, rfl⟩)
    · have := hmax.mpr hle
      rcases List.mem_append.mp hmem with hmem | hmem
      · have := List.eq_of_mem_replicate hmem
        omega
      · have := List.eq_of_mem_replicate hmem
        omega
    · rcases List.mem_append.mp hmem with hmem | hmem
      · have := List.eq_of_mem_replicate hmem
        omega
      · have := List.eq_of_mem_replicate hmem
        omega
  · refine ⟨_, if_pos (by omega), ⟨fun _ => ?_, fun _ k hmem => ?_⟩, fun k hmem => ?_⟩
    · have := Nat.mul_le_mul_right houses ht
      omega
    · rwa [List.eq_of_mem_replicate hmem]
    · rw [List.eq_of_mem_replicate hmem]

end

end MulticorePrac.House
