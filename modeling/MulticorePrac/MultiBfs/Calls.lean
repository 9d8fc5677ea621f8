import MulticorePrac.House.Cores
import MulticorePrac.MultiBfs.Progress

/-!
# Project1: the calls of `BFSMultiThread` and the tables of 64 bits

A `HouseWorker` takes houses and searches from each with the number of threads that
`main` gave it; a search is a step of its own here, and `calls` records those of
`BFSMultiThread`.  `g_pow2` has an entry for each of `MAX_HOUSE = 64` indices.  In a
search with `n` threads it is read at the worker's own id and at the index of the worker
that is given work (`pow2Index`); both are below `n`.

`MAX_BFS_MULTI_THREAD` is 64 too, but nothing enforces it: `main` divides all cores over
the houses, so with more than 64 cores for each house some worker has more threads.
-/

namespace MulticorePrac.MultiBfs

open House (Problem gPow2 gPow2_eq numThreadsPerWorkerArr MAX_HOUSE)

def MAX_BFS_MULTI_THREAD : Nat := 64

/-! ## `HouseWorker::BFSThread` -/

inductive CallerPc
  | test
  | claim
  | call (house : Nat)
  | search
  | done
  deriving DecidableEq, Repr

/-- A call `BFSMultiThread(startHouse, numThreads)`. -/
structure Call where
  startHouse : Nat
  numThreads : Nat
  deriving DecidableEq, Repr

structure Callers where
  houseIndex : Nat
  pc : Nat → CallerPc
  calls : List Call

def Callers.goto (s : Callers) (w : Nat) (pc : CallerPc) : Callers :=
  { s with pc := Function.update s.pc w pc }

/-- A step of the worker `w` with `k` allowed threads. -/
def callerStep (houses : List Nat) (k : Nat) (s : Callers) (w : Nat) : Option Callers :=
  match s.pc w with
  | .test =>
    if s.houseIndex + 1 < houses.length then some (s.goto w .claim) else some (s.goto w .done)
  | .claim =>
    let s' := { s with houseIndex := s.houseIndex + 1 }
    if s.houseIndex + 1 < houses.length then
      some (s'.goto w (.call (houses.getD s.houseIndex 0)))
    else some (s'.goto w .done)
  | .call house =>
    if k = 1 then some (s.goto w .search)
    else some { s.goto w .search with calls := ⟨house, k⟩ :: s.calls }
  | .search => some (s.goto w .test)
  | .done => none

/-- The workers of `main`, one for each entry of `num_threads_per_worker_arr`. -/
def callers (houses arr : List Nat) : Machine Callers Nat where
  init := ⟨0, fun _ => .test, []⟩
  step s w :=
    match arr[w]? with
    | none => none
    | some k => callerStep houses k s w

/-! ## The indices of a search -/

/-- The index into `g_pow2` of the next step of worker `w`. -/
def pow2Index (w : Nat) (l : Worker) : Option Nat :=
  match l.pc with
  | .giveFull => some l.i
  | .doneStore | .leaveFull | .leaveNext => some w
  | _ => none

/-- In a search with `n` threads every index into `g_pow2` is inside the table, and the workers
have distinct bits that are not zero. -/
structure BitsFit (p : Problem) (start n : Nat) : Prop where
  threads : n ≤ MAX_BFS_MULTI_THREAD
  index : ∀ s, (search p start n).Reachable s → ∀ w < n, ∀ i ∈ pow2Index w (s.worker w), i < MAX_HOUSE
  workers : ∀ w < n, w < MAX_HOUSE ∧ gPow2 w ≠ 0 ∧ ∀ u < n, u ≠ w → gPow2 u ≠ gPow2 w

/-- All calls of `BFSMultiThread` that the house workers make on `numCores` cores. -/
def CallsFit (p : Problem) (numCores : Nat) : Prop :=
  ∃ arr, numThreadsPerWorkerArr numCores p.houses.length = some arr ∧
    ∀ s, (callers p.houses arr).Reachable s → ∀ c ∈ s.calls, BitsFit p c.startHouse c.numThreads

section
variable {p : Problem} {start n : Nat}

/-- Before worker 0 is started no worker has work. -/
theorem pow2Index_waiting {s : St} (h : Waiting n s) (w : Nat) : pow2Index w (s.worker w) = none := by
  unfold pow2Index
  rcases h.pc w with hpc | hpc <;> simp [hpc]

theorem pow2Index_lt (hn : 0 < n) (hn' : n ≤ 64) {s : St} (hr : (search p start n).Reachable s)
    {w i : Nat} (hw : w < n) (hi : i ∈ pow2Index w (s.worker w)) : i < n := by
  have hbusy : ∀ D, Inv n D s.sync s.worker → i < n := by
    intro D h
    have hok := h.ok w
    unfold Ok at hok
    unfold pow2Index at hi
    cases hpc : (s.worker w).pc <;> simp only [hpc] at hi hok
    case giveFull => exact Option.some.inj hi ▸ hok.2.2.1
    case doneStore | leaveFull | leaveNext => exact Option.some.inj hi ▸ hw
    all_goals cases hi
  have h := barrierInv_of_reachable hn hn' hr
  unfold BarrierInv at h
  cases hm : s.mainPc with
  | create k =>
    rw [hm] at h
    rw [pow2Index_waiting h w] at hi
    cases hi
  | join k =>
    rw [hm] at h
    exact hbusy h.choose h.choose_spec
  | returned =>
    rw [hm] at h
    exact hbusy h.choose h.choose_spec

theorem getLsbD_gPow2_self {w : Nat} (hw : w < 64) : (gPow2 w).getLsbD w = true := by
  rw [House.getLsbD_gPow2]
  simp [hw]

theorem gPow2_ne_zero {w : Nat} (hw : w < 64) : gPow2 w ≠ 0 := by
  intro h
  have hb := getLsbD_gPow2_self hw
  rw [h] at hb
  simp at hb

theorem gPow2_inj {u w : Nat} (hw : w < 64) (h : gPow2 u = gPow2 w) : u = w := by
  have hb := getLsbD_gPow2_self hw
  rw [← h, House.getLsbD_gPow2] at hb
  simpa [hw] using hb

theorem bitsFit (hn : 0 < n) (hn' : n ≤ MAX_BFS_MULTI_THREAD) : BitsFit p start n where
  threads := hn'
  index s hr w hw i hi := Nat.lt_of_lt_of_le (pow2Index_lt hn hn' hr hw hi) hn'
  workers w hw := by
    have hw' : w < 64 := Nat.lt_of_lt_of_le hw hn'
    exact ⟨hw', gPow2_ne_zero hw', fun u _ hne he => hne (gPow2_inj hw' he)⟩

/-! ## The calls -/

/-- Every call has the number of threads of some worker. -/
theorem calls_of_reachable {houses arr : List Nat} {s : Callers}
    (hr : (callers houses arr).Reachable s) : ∀ c ∈ s.calls, c.numThreads ∈ arr := by
  refine (callers houses arr).invariant (fun s => ∀ c ∈ s.calls, c.numThreads ∈ arr) (by nofun) ?_ hr
  intro s w s' h hs
  simp only [callers] at hs
  split at hs
  · cases hs
  · next k hk =>
    unfold callerStep at hs
    cases hpc : s.pc w <;> simp only [hpc] at hs
    case test | claim => split at hs <;> cases hs <;> exact h
    case call house =>
      split at hs <;> cases hs
      · exact h
      · intro c hc
        rcases List.mem_cons.mp hc with rfl | hc
        · exact List.mem_of_getElem? hk
        · exact h c hc
    case search => cases hs; exact h
    case done => cases hs

/-- A worker with more than one thread can take the first house and call `BFSMultiThread`. -/
theorem call_reachable {houses arr : List Nat} (hh : 2 ≤ houses.length) {k : Nat} (hk : k ∈ arr)
    (h1 : k ≠ 1) : ∃ s, (callers houses arr).Reachable s ∧ ⟨houses.getD 0 0, k⟩ ∈ s.calls := by
  obtain ⟨w, hw⟩ := List.mem_iff_getElem?.mp hk
  have hrun : ∃ s, (callers houses arr).run [w, w, w] = some s ∧
      s.calls = [⟨houses.getD 0 0, k⟩] := by
    simp [Machine.run, Machine.runFrom, callers, hw, callerStep, Callers.goto, h1,
      show 1 < houses.length from hh]
  obtain ⟨s, hs, hc⟩ := hrun
  exact ⟨s, ⟨_, hs⟩, by rw [hc]; exact List.mem_singleton_self _⟩

end

/-- **The calls fit the bit tables** exactly when there are at most 64 cores for each house. -/
theorem callsFit_iff (p : Problem) (numCores : Nat) (hh : 2 ≤ p.houses.length) :
    CallsFit p numCores ↔ numCores ≤ 64 * p.houses.length := by
  obtain ⟨arr, harr, hiff, hpos⟩ := House.numThreadsPerWorkerArr_le_iff numCores
    (show 0 < p.houses.length by omega) (show 1 ≤ 64 by decide)
  rw [← hiff]
  constructor
  · rintro ⟨arr', harr', hfit⟩ k hk
    obtain rfl := Option.some.inj (harr.symm.trans harr')
    by_cases h1 : k = 1
    · omega
    · obtain ⟨s, hr, hc⟩ := call_reachable hh hk h1
      exact (hfit s hr _ hc).threads
  · intro hle
    refine ⟨arr, harr, fun s hr c hc => ?_⟩
    have hk := calls_of_reachable hr c hc
    exact bitsFit (hpos _ hk) (hle _ hk)

/-- Two houses on 128 cores: both workers have 64 threads. -/
theorem callsFit_iff_fork : 2 ≤ forkProblem.houses.length ∧ CallsFit forkProblem 128 :=
  ⟨by decide, (callsFit_iff forkProblem 128 (by decide)).mpr (by decide)⟩

/-! ## An index past the table -/

/-- A tree of 101 vertices with ten branches at the root and nine at each of its children, and a
house below the last leaf. -/
def wideRows : List (Nat × List Nat) :=
  (1, (List.range 10).map (· + 2)) ::
    ((List.range 10).map fun k => (k + 2, (List.range 9).map fun j => 12 + 9 * k + j)) ++
      [(101, [102])]

theorem wideRows_fits : House.Fits [1, 102] 102 wideRows := by decide +kernel

def wideProblem : Problem := .ofFits [1, 102] 102 wideRows wideRows_fits

/-- The start of the search with 65 threads, then the workers and the number of their steps: worker 0
gives nine of the root's children to the workers 1 to 9.  In the next level each of them gives
eight vertices away, and worker 6 comes to the last worker without work. -/
def wideRun : List Act :=
  List.replicate 65 .main ++
    [(0, 193), (1, 29), (2, 29), (3, 29), (4, 29), (5, 29), (6, 29), (7, 29), (8, 29), (9, 29),
      (0, 192), (1, 252), (2, 316), (3, 380), (4, 444), (5, 508), (6, 494)].flatMap
      fun e => List.replicate e.2 (.worker e.1)

/-- With two houses on 130 cores, `BFSMultiThread` is called with 65 threads, and a worker reads
`g_pow2[64]`. -/
theorem pow2_past_end :
    numThreadsPerWorkerArr 130 wideProblem.houses.length = some [65, 65] ∧
    (∃ s, (callers wideProblem.houses [65, 65]).Reachable s ∧ ⟨1, 65⟩ ∈ s.calls) ∧
    ∃ s, (search wideProblem 1 65).run wideRun = some s ∧
      pow2Index 6 (s.worker 6) = some MAX_HOUSE := by
  refine ⟨by decide +kernel, call_reachable (by decide) (by decide) (by decide), ?_⟩
  have hs : (((search wideProblem 1 65).run wideRun).any fun s =>
      decide (pow2Index 6 (s.worker 6) = some MAX_HOUSE)) = true := by
    decide +kernel
  obtain ⟨s, hr, h0⟩ := (Option.any_eq_true _ _).mp hs
  exact ⟨s, hr, of_decide_eq_true h0⟩

end MulticorePrac.MultiBfs
