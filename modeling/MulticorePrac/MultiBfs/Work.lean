import MulticorePrac.House.Answer
import MulticorePrac.MultiBfs.Levels

/-!
# How much work is left in a search

`left`: a number that every step of a worker lowers, but for the loads and tests with which
it stays in one of the two spin loops (`retests`).  A worker may still find each vertex that is not checked once; the test
of `check_map_` and the store are apart, so each worker is charged for each vertex, and
one that is about to mark a vertex has paid for it (`fresh`).  Of the vertices of a level a
worker can give away all but one.  A vertex that is given away is paid for by the worker
that gives it until the other one is busy.  Vertices of the next level cost nothing once
all houses are visited.
-/

namespace MulticorePrac.MultiBfs

open House (Bits Problem gPow2 fullVisitBits visitOrder unchecked unchecked_le unchecked_mark)

/-! ## The costs -/

/-- The vertices of a level; the last one cannot be given away. -/
def levelCost (n : Nat) : Nat → Nat
  | 0 => 0
  | k + 1 => 12 + (n + 50) * k

/-- The vertices that were found for the next level, and the steps of that level itself. -/
def nextCost (n : Nat) (stop : Bool) (k : Nat) : Nat :=
  if stop = true ∨ k = 0 then 0 else 18 + levelCost n k

/-- What a worker has to do from where it is. -/
def Worker.place (n : Nat) (stop busy : Bool) (l : Worker) : Nat :=
  let next := nextCost n stop l.next.length
  let level := levelCost n l.cur.length + l.todo.length + next
  match l.pc with
  | .idle => if busy then 40 else 1
  | .idleFree => if busy then 41 else 1
  | .load => 39
  | .levelTest => 8 + next
  | .giveTest => 25 + level
  | .giveLock => 24 + level
  | .giveCheck => 23 + level
  | .giveBreak => 22 + level
  | .giveDec => 22 + level
  | .giveScan => 71 + (n - l.i) + level
  | .giveParam => 70 + level
  | .giveFull => 69 + level
  | .giveBusy => 68 + level
  | .giveUnlock => 26 + level
  | .visit => 21 + level
  | .mark => 24 + (n + 50) + level
  | .update => 23 + level
  | .setBits => 22 + level
  | .doneLock => 20 + next
  | .doneLoad => 19 + next
  | .doneStore => 18 + next
  | .doneUnlock => 17 + next
  | .waitDone | .waitFull | .waitFullAgain => 16 + next
  | .passLock => 15 + next
  | .passTest => 14 + next
  | .resetDone => 13 + next
  | .copyFull => 12 + next
  | .setFlag => 11 + next
  | .clearFlag => 10 + next
  | .passUnlock => 9 + next
  | .leaveLock => 7
  | .leaveFull => 6
  | .leaveNext => 5
  | .leaveBusy => 4
  | .leaveFree => 3
  | .leaveUnlock => 2
  | .finished | .fault => 0

/-- One for a worker that is about to mark a vertex that is not checked. -/
def Worker.fresh (check : Nat → Bool) (l : Worker) : Nat :=
  if l.pc = .mark ∧ check l.v = false then 1 else 0

def Worker.cost (p : Problem) (n : Nat) (stop : Bool) (check : Nat → Bool) (busy : Bool)
    (l : Worker) : Nat :=
  (n + 54) * (unchecked p check - l.fresh check) + l.place n stop busy

/-- All houses are visited. -/
def St.stopped (p : Problem) (start : Nat) (s : St) : Bool :=
  s.visitBits == fullVisitBits (p.context.houseIndexMap start) p.houses.length

def St.cost (p : Problem) (start n : Nat) (s : St) (w : Nat) : Nat :=
  (s.worker w).cost p n (s.stopped p start) s.checkMap (s.sync.isBusy w)

def MainPc.left (n : Nat) : MainPc → Nat
  | .create k => (n - k) + n + 43
  | .join k => n - k + 1
  | .returned => 0

def left (p : Problem) (start n : Nat) (s : St) : Nat :=
  ∑ w ∈ Finset.range n, s.cost p start n w + s.mainPc.left n

/-- Worker `w` is in one of the two spin loops, and its next step is a load or a test with which it
stays there.  The loads of the round that ends the wait at the barrier, and the test of `is_busy`
before all workers are found free, are such steps too: that they were not in vain shows later. -/
def retests (n : Nat) (s : St) (w : Nat) : Bool :=
  let l := s.worker w
  match l.pc with
  | .idle => !s.sync.isBusy w
  | .idleFree => !s.sync.isBusy w && s.sync.numFreeWorkers != n
  | .waitDone | .waitFull => true
  | .waitFullAgain => l.bits != s.sync.workerDoneFullBits (l.dist % 2)
  | _ => false

/-- What the costs need besides the invariants: a vertex that is given away is not the last one,
and a worker that waits for work has no vertices left unless the search has stopped. -/
def Slim (stop : Prop) (l : Worker) : Prop :=
  match l.pc with
  | .giveLock | .giveCheck | .giveDec => 1 < l.cur.length
  | .idle | .idleFree | .load => ¬stop → l.next = []
  | _ => True

section
variable {p : Problem} {start n D : Nat} {s s' : St} {w : Nat} {l : Worker}

theorem stopped_iff : s.stopped p start = true ↔ Stopped p start s := by
  unfold St.stopped Stopped
  exact beq_iff_eq

/-! ## Arithmetic of the costs -/

theorem levelCost_succ_le (n k : Nat) : levelCost n (k + 1) ≤ levelCost n k + (n + 50) := by
  cases k with
  | zero => show 12 + (n + 50) * 0 ≤ 0 + (n + 50); omega
  | succ k => show 12 + (n + 50) * (k + 1) ≤ 12 + (n + 50) * k + (n + 50); rw [Nat.mul_succ]; omega

theorem le_levelCost_succ (n k : Nat) : levelCost n k + 12 ≤ levelCost n (k + 1) := by
  cases k with
  | zero => exact Nat.le_add_left _ _
  | succ k => show 12 + (n + 50) * k + 12 ≤ 12 + (n + 50) * (k + 1); rw [Nat.mul_succ]; omega

theorem levelCost_dropLast {k : Nat} (hk : 1 < k) :
    levelCost n (k - 1) + (n + 50) = levelCost n k := by
  obtain ⟨k, rfl⟩ : ∃ j, k = j + 2 := ⟨k - 2, by omega⟩
  show 12 + (n + 50) * k + (n + 50) = 12 + (n + 50) * (k + 1)
  rw [Nat.mul_succ]
  omega

theorem nextCost_succ_le (n k : Nat) (stop : Bool) :
    nextCost n stop (k + 1) ≤ nextCost n stop k + (n + 50) := by
  unfold nextCost
  cases stop with
  | true => simp
  | false =>
    cases k with
    | zero => show 18 + (12 + (n + 50) * 0) ≤ 0 + (n + 50); omega
    | succ k =>
      have := levelCost_succ_le n (k + 1)
      simp only [Bool.false_eq_true, false_or, Nat.add_eq_zero_iff, one_ne_zero, and_false, if_false]
      omega

theorem nextCost_le_of_stop {stop stop' : Bool} (h : stop = true → stop' = true) (n k : Nat) :
    nextCost n stop' k ≤ nextCost n stop k := by
  unfold nextCost
  cases stop' with
  | true => simp
  | false =>
    have : stop = false := by
      cases hs : stop with
      | false => rfl
      | true => exact absurd (h hs) (by decide)
    rw [this]

theorem place_le_of_stop {stop stop' : Bool} (h : stop = true → stop' = true) (n : Nat)
    (busy : Bool) (l : Worker) : l.place n stop' busy ≤ l.place n stop busy := by
  have := nextCost_le_of_stop h n l.next.length
  unfold Worker.place
  cases l.pc <;> dsimp only <;> omega

theorem fresh_of_pc {check : Nat → Bool} {a : Pc} (h : l.pc = a) (ha : a ≠ .mark) :
    l.fresh check = 0 :=
  if_neg fun hc => ha (h.symm.trans hc.1)

/-! ## Sums over the workers -/

theorem left_lt (hw : w < n) (hle : ∀ u, u ≠ w → s'.cost p start n u ≤ s.cost p start n u)
    (hlt : s'.cost p start n w < s.cost p start n w) (hm : s'.mainPc = s.mainPc) :
    left p start n s' < left p start n s := by
  have hsum : ∑ u ∈ Finset.range n, s'.cost p start n u < ∑ u ∈ Finset.range n, s.cost p start n u := by
    refine Finset.sum_lt_sum (fun u _ => ?_) ⟨w, Finset.mem_range.mpr hw, hlt⟩
    by_cases hu : u = w
    · rw [hu]
      exact Nat.le_of_lt hlt
    · exact hle u hu
  unfold left
  rw [hm]
  omega

/-- A step of a worker that checks no vertex and sets no bit. -/
theorem left_goto {y : Sync} {a : Pc} (hw : w < n) (hpc : (s.worker w).pc = a) (ha : a ≠ .mark)
    (hfresh : l.fresh s.checkMap = 0)
    (hbusy : ∀ u, u ≠ w → y.isBusy u = s.sync.isBusy u)
    (hlt : l.place n (s.stopped p start) (y.isBusy w) <
      (s.worker w).place n (s.stopped p start) (s.sync.isBusy w)) :
    left p start n (s.moveSync w l y) < left p start n s := by
  refine left_lt hw (fun u hu => ?_) ?_ rfl
  · show Worker.cost p n (s.stopped p start) s.checkMap (y.isBusy u) (Function.update s.worker w l u) ≤ _
    rw [Function.update_of_ne hu, hbusy u hu]
    exact Nat.le_refl _
  · show Worker.cost p n (s.stopped p start) s.checkMap (y.isBusy w) (Function.update s.worker w l w) < _
    rw [Function.update_self]
    unfold St.cost Worker.cost
    rw [hfresh, fresh_of_pc hpc ha]
    omega

/-! ## The steps of a worker -/

theorem left_idle (hw : w < n) (hslim : Slim (Stopped p start s) (s.worker w))
    (hretests : retests n s w = false) (hs : idleStep n s w = some s') :
    left p start n s' < left p start n s := by
  unfold Slim at hslim
  unfold retests at hretests
  cases hpc : (s.worker w).pc <;> simp only [idleStep, hpc] at hs hslim hretests <;> try cases hs
  case idle =>
    have hb : s.sync.isBusy w = true := by simpa using hretests
    rw [if_pos hb] at hs
    cases hs
    refine left_goto hw hpc (by decide) rfl (fun _ _ => rfl) ?_
    simp [Worker.place, Worker.goto, hpc, hb]
  case idleFree =>
    split at hs <;> cases hs
    · refine left_goto hw hpc (by decide) rfl (fun _ _ => rfl) ?_
      simp only [Worker.place, Worker.goto, hpc]
      split <;> omega
    · next hne =>
      have hb : s.sync.isBusy w = true := by simpa [hne] using hretests
      refine left_goto hw hpc (by decide) rfl (fun _ _ => rfl) ?_
      simp [Worker.place, Worker.goto, hpc, hb]
  case load =>
    refine left_goto hw hpc (by decide) rfl (fun _ _ => rfl) ?_
    simp only [Worker.place, hpc, List.length_append, List.length_singleton]
    by_cases hstop : s.stopped p start = true
    · simp [nextCost, hstop]
    · rw [hslim fun hc => hstop (stopped_iff.mpr hc)]
      simp [nextCost, levelCost, hstop]

theorem left_level (hw : w < n) (hpc : (s.worker w).pc = .levelTest)
    (htidy : (s.worker w).cur = [] ∧ (s.worker w).todo = [])
    (hs : levelStep p start s w = some s') : left p start n s' < left p start n s := by
  unfold levelStep at hs
  dsimp only at hs
  split at hs <;> cases hs
  · next hgo =>
    have hstop : s.stopped p start = false :=
      Bool.eq_false_of_not_eq_true fun hc => hgo.1 (stopped_iff.mp hc)
    have hlen : (s.worker w).next.length ≠ 0 := fun hc => hgo.2 (List.length_eq_zero_iff.mp hc)
    refine left_goto hw hpc (by decide) rfl (fun _ _ => rfl) ?_
    simp only [Worker.place, hpc, htidy.1, htidy.2, List.length_nil]
    rw [show nextCost n (s.stopped p start) (s.worker w).next.length =
        18 + levelCost n (s.worker w).next.length by simp [nextCost, hstop, hlen],
      show nextCost n (s.stopped p start) 0 = 0 by simp [nextCost]]
    omega
  · refine left_goto hw hpc (by decide) rfl (fun _ _ => rfl) ?_
    simp only [Worker.place, Worker.goto, hpc]
    omega

/-- The receiver is busy; the worker that gave the vertex has paid for what it will do. -/
theorem left_giveBusy (h : Inv n D s.sync s.worker) (hw : w < n)
    (hpc : (s.worker w).pc = .giveBusy) :
    left p start n (s.moveSync w ((s.worker w).goto .giveUnlock)
      { s.sync with isBusy := Function.update s.sync.isBusy (s.worker w).i true }) <
      left p start n s := by
  obtain ⟨hbw, -, hi, hfree, -, -⟩ : s.sync.isBusy w = true ∧ (s.worker w).dist = D ∧
      (s.worker w).i < n ∧ s.sync.isBusy (s.worker w).i = false ∧ _ ∧ _ := (h.ok w).here hpc
  obtain ⟨hne, hidle⟩ := h.target_waits (by rw [hpc]; rfl) hbw hfree
  set i := (s.worker w).i with hidef
  refine Nat.add_lt_add_right (Machine.sum_lt_of_pair hw hi (Ne.symm hne) ?_ ?_) _
  · intro v hv hvi
    show Worker.cost p n (s.stopped p start) s.checkMap (Function.update s.sync.isBusy i true v)
      (Function.update s.worker w _ v) = _
    rw [Function.update_of_ne hv, Function.update_of_ne hvi]
    rfl
  · show Worker.cost p n (s.stopped p start) s.checkMap (Function.update s.sync.isBusy i true w)
        (Function.update s.worker w _ w) +
      Worker.cost p n (s.stopped p start) s.checkMap (Function.update s.sync.isBusy i true i)
        (Function.update s.worker w _ i) < _
    rw [Function.update_self, Function.update_self, Function.update_of_ne hne]
    have hgive : ((s.worker w).goto .giveUnlock).place n (s.stopped p start)
        (Function.update s.sync.isBusy i true w) + 42 =
        (s.worker w).place n (s.stopped p start) (s.sync.isBusy w) := by
      simp only [Worker.place, Worker.goto, hpc]
      omega
    have htake : (s.worker i).place n (s.stopped p start) true ≤
        (s.worker i).place n (s.stopped p start) (s.sync.isBusy i) + 40 := by
      rcases hidle with hp | hp <;> simp [Worker.place, hp, hfree]
    have hfresh : ((s.worker w).goto .giveUnlock).fresh s.checkMap = 0 := rfl
    unfold St.cost Worker.cost
    rw [fresh_of_pc hpc (by decide), hfresh]
    omega

theorem left_give (h : Inv n D s.sync s.worker) (hw : w < n)
    (hslim : Slim (Stopped p start s) (s.worker w)) (hs : giveStep n s w = some s') :
    left p start n s' < left p start n s := by
  unfold Slim at hslim
  cases hpc : (s.worker w).pc <;> simp only [giveStep, hpc] at hs hslim <;> try cases hs
  case giveBusy => exact left_giveBusy h hw hpc
  case giveTest | giveLock | giveCheck =>
    split at hs <;> cases hs
    all_goals
      refine left_goto hw hpc (by decide) rfl (fun _ _ => rfl) ?_
      simp only [Worker.place, Worker.goto, hpc]
      omega
  case giveScan =>
    rw [if_pos (h.scan_lt hw hpc)] at hs
    split at hs <;> cases hs
    all_goals
      have := h.scan_lt hw hpc
      refine left_goto hw hpc (by decide) rfl (fun _ _ => rfl) ?_
      simp only [Worker.place, Worker.goto, hpc]
      omega
  case giveDec =>
    refine left_goto hw hpc (by decide) rfl (fun _ _ => rfl) ?_
    have := levelCost_dropLast (n := n) hslim
    simp only [Worker.place, hpc, List.length_dropLast]
    omega
  all_goals
    refine left_goto hw hpc (by decide) rfl (fun _ _ => rfl) ?_
    simp only [Worker.place, Worker.goto, hpc]
    omega

theorem unchecked_pos {check : Nat → Bool} {v : Nat} (hv : v ≤ p.numVertices)
    (hc : check v = false) : 0 < unchecked p check :=
  Nat.lt_of_le_of_lt (Nat.zero_le _) (unchecked_mark hv hc)

/-- The store in `check_map_`: the worker has paid for the vertex, and no other one pays. -/
theorem left_mark (hw : w < n) (hpc : (s.worker w).pc = .mark)
    (hv : (s.worker w).v ≤ p.numVertices) (hs : visitStep p s w = some s') :
    left p start n s' < left p start n s := by
  simp only [visitStep, hpc] at hs
  cases hs
  have hmono : ∀ l : Worker,
      unchecked p (Function.update s.checkMap (s.worker w).v true) -
        l.fresh (Function.update s.checkMap (s.worker w).v true) ≤
      unchecked p s.checkMap - l.fresh s.checkMap := by
    intro l
    cases hc : s.checkMap (s.worker w).v with
    | true =>
      rw [← hc, Function.update_eq_self]
    | false =>
      have hlt := unchecked_mark hv hc
      have hone : l.fresh s.checkMap ≤ 1 := by
        unfold Worker.fresh
        split <;> omega
      omega
  refine left_lt hw (fun u hu => ?_) ?_ rfl
  · show Worker.cost p n (s.stopped p start) _ (s.sync.isBusy u) (Function.update s.worker w _ u) ≤ _
    rw [Function.update_of_ne hu]
    exact Nat.add_le_add_right (Nat.mul_le_mul_left _ (hmono _)) _
  · show Worker.cost p n (s.stopped p start) _ (s.sync.isBusy w) (Function.update s.worker w _ w) < _
    rw [Function.update_self]
    have hself := hmono (s.worker w)
    rw [show (s.worker w).fresh (Function.update s.checkMap (s.worker w).v true) = 0 by
      simp [Worker.fresh]] at hself
    have hnext := nextCost_succ_le n (s.worker w).next.length (s.stopped p start)
    refine Nat.add_lt_add_of_le_of_lt (Nat.mul_le_mul_left _ (le_trans (Nat.sub_le _ _) hself)) ?_
    simp only [Worker.place, hpc, List.length_append, List.length_singleton]
    cases p.context.houseBitmap (s.worker w).v <;> simp <;> omega

/-- `VisitNeighborsOf`: the next neighbour, the next vertex, or the end of the level. -/
theorem left_neighbour (hw : w < n) (hpc : (s.worker w).pc = .visit)
    (htodo : ∀ v ∈ (s.worker w).todo, v ≤ p.numVertices) (hs : visitStep p s w = some s') :
    left p start n s' < left p start n s := by
  simp only [visitStep, hpc] at hs
  split at hs
  · next v todo heq =>
    split at hs <;> cases hs
    · refine left_goto hw hpc (by decide) rfl (fun _ _ => rfl) ?_
      simp only [Worker.place, hpc, heq, List.length_cons]
      omega
    · next hc =>
      have hcheck : s.checkMap v = false := Bool.eq_false_of_not_eq_true hc
      have hpos : 0 < unchecked p s.checkMap :=
        unchecked_pos (htodo v (by rw [heq]; exact List.mem_cons_self)) hcheck
      refine left_lt hw (fun u hu => ?_) ?_ rfl
      · show Worker.cost p n (s.stopped p start) s.checkMap (s.sync.isBusy u)
          (Function.update s.worker w _ u) ≤ _
        rw [Function.update_of_ne hu]
        exact Nat.le_refl _
      · show Worker.cost p n (s.stopped p start) s.checkMap (s.sync.isBusy w)
          (Function.update s.worker w _ w) < _
        rw [Function.update_self]
        unfold St.cost Worker.cost
        rw [fresh_of_pc hpc (by decide)]
        simp only [Worker.place, Worker.fresh, hpc, heq, hcheck, List.length_cons, and_self, if_true,
          Nat.sub_zero]
        obtain ⟨k, hk⟩ : ∃ k, unchecked p s.checkMap = k + 1 := ⟨_, (Nat.succ_pred_eq_of_pos hpos).symm⟩
        rw [hk, Nat.add_sub_cancel, Nat.mul_succ]
        omega
  · next v cur htodo hcur =>
    cases hs
    have hlen := House.length_visitOrder_le (p.context.adjlist v)
    have hlevel := le_levelCost_succ n cur.length
    refine left_goto hw hpc (by decide) rfl (fun _ _ => rfl) ?_
    simp only [Worker.place, hpc, htodo, hcur, List.length_cons, List.length_nil]
    omega
  · cases hs
    refine left_goto hw hpc (by decide) rfl (fun _ _ => rfl) ?_
    simp only [Worker.place, Worker.goto, hpc]
    omega

/-- The search may stop when a house is visited; then the vertices of the next level are dropped. -/
theorem left_of_stop (hstop : Stopped p start s → Stopped p start s')
    (hcheck : s'.checkMap = s.checkMap) (hbusy : s'.sync.isBusy = s.sync.isBusy)
    (hworker : s'.worker = s.worker) (hm : s'.mainPc = s.mainPc) :
    left p start n s' ≤ left p start n s := by
  unfold left
  rw [hm]
  refine Nat.add_le_add_right (Finset.sum_le_sum fun u _ => ?_) _
  unfold St.cost Worker.cost
  rw [hcheck, hbusy, hworker]
  refine Nat.add_le_add_left (place_le_of_stop (fun hc => ?_) n _ _) _
  exact stopped_iff.mpr (hstop (stopped_iff.mp hc))

theorem left_visit (hw : w < n) (hstop : Stopped p start s → Stopped p start s')
    (htodo : (s.worker w).pc = .visit → ∀ v ∈ (s.worker w).todo, v ≤ p.numVertices)
    (hmark : (s.worker w).pc = .mark → (s.worker w).v ≤ p.numVertices)
    (hs : visitStep p s w = some s') : left p start n s' < left p start n s := by
  cases hpc : (s.worker w).pc
  case visit => exact left_neighbour hw hpc (htodo hpc) hs
  case mark => exact left_mark hw hpc (hmark hpc) hs
  case update =>
    simp only [visitStep, hpc] at hs
    cases hs
    show left p start n (s.moveSync w ((s.worker w).goto .setBits) s.sync) < left p start n s
    refine left_goto hw hpc (by decide) rfl (fun _ _ => rfl) ?_
    simp only [Worker.place, Worker.goto, hpc]
    omega
  case setBits =>
    simp only [visitStep, hpc] at hs
    cases hs
    have hgoto : left p start n (s.moveSync w ((s.worker w).goto .visit) s.sync) < left p start n s := by
      refine left_goto hw hpc (by decide) rfl (fun _ _ => rfl) ?_
      simp only [Worker.place, Worker.goto, hpc]
      omega
    exact Nat.lt_of_le_of_lt
      (left_of_stop (s := s.moveSync w ((s.worker w).goto .visit) s.sync) hstop rfl rfl rfl rfl) hgoto
  all_goals
    simp only [visitStep, hpc] at hs
    cases hs

theorem left_barrier (hw : w < n) (hretests : retests n s w = false) (hs : barrierStep s w = some s') :
    left p start n s' < left p start n s := by
  unfold retests at hretests
  cases hpc : (s.worker w).pc <;> simp only [barrierStep, hpc] at hs hretests <;> try cases hs
  case waitDone | waitFull => cases hretests
  case waitFullAgain =>
    rw [if_neg (by simpa using hretests)] at hs
    cases hs
    refine left_goto hw hpc (by decide) rfl (fun _ _ => rfl) ?_
    simp only [Worker.place, Worker.goto, hpc]
    omega
  case doneLock | passLock | passTest =>
    split at hs <;> cases hs
    all_goals
      refine left_goto hw hpc (by decide) rfl (fun _ _ => rfl) ?_
      simp only [Worker.place, Worker.goto, hpc]
      omega
  all_goals
    refine left_goto hw hpc (by decide) rfl (fun _ _ => rfl) ?_
    simp only [Worker.place, Worker.goto, hpc]
    omega

theorem left_leave (h : Inv n D s.sync s.worker) (hw : w < n) (hs : leaveStep s w = some s') :
    left p start n s' < left p start n s := by
  cases hpc : (s.worker w).pc <;> simp only [leaveStep, hpc] at hs <;> try cases hs
  case leaveLock =>
    split at hs <;> cases hs
    refine left_goto hw hpc (by decide) rfl (fun _ _ => rfl) ?_
    simp only [Worker.place, Worker.goto, hpc]
    omega
  case leaveBusy =>
    refine left_goto hw hpc (by decide) rfl (fun u hu => Function.update_of_ne hu _ _) ?_
    simp only [Worker.place, Worker.goto, hpc]
    omega
  case leaveUnlock =>
    have hfree : s.sync.isBusy w = false := (h.ok w).here hpc
    refine left_goto hw hpc (by decide) rfl (fun _ _ => rfl) ?_
    simp [Worker.place, Worker.goto, hpc, hfree]
  all_goals
    refine left_goto hw hpc (by decide) rfl (fun _ _ => rfl) ?_
    simp only [Worker.place, Worker.goto, hpc]
    omega

/-! ## The worker's other invariant -/

theorem Slim.mono {stop stop' : Prop} (h : Slim stop l) (hs : stop → stop') : Slim stop' l := by
  unfold Slim at h ⊢
  cases hpc : l.pc <;> simp only [hpc] at h ⊢
  case giveLock | giveCheck | giveDec => exact h
  case idle | idleFree | load => exact fun hc => h (hc ∘ hs)

/-- A worker comes to the wait for work from the end of its levels, and to the handing out from
the test that it has two vertices. -/
theorem slim_worker (h : Slim (Stopped p start s) (s.worker w))
    (hout : (s.worker w).pc = .leaveUnlock → ¬Stopped p start s → (s.worker w).next = [])
    (hs : beginWorkAt p start n s w = some s') : Slim (Stopped p start s) (s'.worker w) := by
  unfold Slim at h
  cases hpc : (s.worker w).pc <;>
    simp only [beginWorkAt, idleStep, levelStep, giveStep, visitStep, barrierStep, leaveStep, hpc]
      at hs h
  case leaveUnlock =>
    cases hs
    simp only [Slim, St.moveSync, Function.update_self, Worker.goto]
    exact hout hpc
  case giveTest =>
    split at hs <;> cases hs <;> simp only [Slim, St.move, Function.update_self, Worker.goto]
    next hgo => exact hgo.2
  case mark =>
    cases hs
    cases hb : p.context.houseBitmap (s.worker w).v <;> simp [Slim, St.move]
  all_goals repeat' split at hs
  all_goals try cases hs
  all_goals simp only [Slim, St.move, St.moveSync, Function.update_self, Worker.goto]
  all_goals exact h

structure WorkInv (p : Problem) (start n : Nat) (s : St) : Prop extends SearchInv p start n s where
  slim : ∀ w, Slim (Stopped p start s) (s.worker w)

/-- While `Run` creates workers, those that exist test in vain. -/
theorem Waiting.in_vain (h : Waiting n s) (hn : 0 < n) (w : Nat) : retests n s w = true := by
  have hfree : (0 : Nat) ≠ n := by omega
  unfold retests
  rcases h.2 w with hl | ⟨hl, -⟩
  · simp [hl, h.1, Worker.initial, Sync.initial]
  · simp [hl, h.1, Worker.goto, Sync.initial, hfree]

/-- Out of the creation the search is at some level. -/
theorem WorkInv.atLevel (h : WorkInv p start n s) (hn : 0 < n) (hretests : retests n s w = false) :
    AtLevel p start n s := by
  have hsearch := h.searching
  unfold Searching at hsearch
  cases hm : s.mainPc <;> rw [hm] at hsearch
  case create => exact absurd (hsearch.1.in_vain hn w) (by rw [hretests]; decide)
  all_goals exact hsearch

/-- Every step of a worker that is not in vain lowers what is left. -/
theorem left_worker (h : WorkInv p start n s) (hstart : start ∈ p.houses) (hw : w < n)
    (hretests : retests n s w = false) (hs : beginWorkAt p start n s w = some s') :
    left p start n s' < left p start n s := by
  obtain ⟨D, hinv, hteam⟩ := h.atLevel (Nat.lt_of_le_of_lt (Nat.zero_le w) hw) hretests
  have hrole : RoleOk p.graph start (nbrs p) D (Stopped p start s)
      (role D s.sync w (s.worker w)) := hteam.roles w
  have hstop : Stopped p start s → Stopped p start s' := h.found.stopped_worker hstart hs
  have hslim := h.slim w
  have htidy := h.found.tidy w
  have htodo : (s.worker w).pc = .visit → ∀ v ∈ (s.worker w).todo, v ≤ p.numVertices := by
    intro hpc v hv
    rw [show role D s.sync w (s.worker w) =
      .work (s.worker w).cur (s.worker w).todo (s.worker w).next by simp [role, hpc]] at hrole
    obtain ⟨u, -, hu⟩ := hrole.2.1 v hv
    exact (p.adjlist_range (mem_visitOrder.mp hu)).2
  have hmark : (s.worker w).pc = .mark → (s.worker w).v ≤ p.numVertices := by
    intro hpc
    rw [show role D s.sync w (s.worker w) = .mark (s.worker w).v (s.worker w).cur (s.worker w).todo
      (s.worker w).next by simp [role, hpc]] at hrole
    exact (p.at_range (p.houses_range start hstart) hrole.2.2.2).2
  unfold Tidy at htidy
  cases hpc : (s.worker w).pc <;> simp only [beginWorkAt, hpc] at hs htidy
  case idle | idleFree | load => exact left_idle hw hslim hretests hs
  case levelTest => exact left_level hw hpc htidy hs
  case visit | mark | update | setBits => exact left_visit hw hstop htodo hmark hs
  case leaveLock | leaveFull | leaveNext | leaveBusy | leaveFree | leaveUnlock =>
    exact left_leave hinv hw hs
  case finished | fault => cases hs
  case giveTest | giveLock | giveCheck | giveBreak | giveDec | giveScan | giveParam | giveFull
      | giveBusy | giveUnlock => exact left_give hinv hw hslim hs
  all_goals exact left_barrier hw hretests hs

/-- A step in vain changes only where the worker is, and leaves as much. -/
theorem retest_worker (hretests : retests n s w = true) (hs : beginWorkAt p start n s w = some s') :
    ∃ l, s' = s.move w l ∧ left p start n s' = left p start n s := by
  have hsame : ∀ l : Worker, l.fresh s.checkMap = (s.worker w).fresh s.checkMap →
      l.place n (s.stopped p start) (s.sync.isBusy w) =
        (s.worker w).place n (s.stopped p start) (s.sync.isBusy w) →
      left p start n (s.move w l) = left p start n s := by
    intro l hf hp
    refine congrArg (· + s.mainPc.left n) (Finset.sum_congr rfl fun u _ => ?_)
    show Worker.cost p n (s.stopped p start) s.checkMap (s.sync.isBusy u)
      (Function.update s.worker w l u) = _
    by_cases hu : u = w
    · subst hu
      rw [Function.update_self]
      unfold St.cost Worker.cost
      rw [hf, hp]
    · rw [Function.update_of_ne hu]
      rfl
  unfold retests at hretests
  cases hpc : (s.worker w).pc <;> simp only [hpc, Bool.false_eq_true] at hretests <;>
    simp only [beginWorkAt, idleStep, barrierStep, hpc] at hs
  case idle =>
    have hb : s.sync.isBusy w = false := by simpa using hretests
    rw [hb, if_neg (by decide)] at hs
    cases hs
    exact ⟨_, rfl, hsame _ (by simp [Worker.fresh, Worker.goto, hpc])
      (by simp [Worker.place, Worker.goto, hpc, hb])⟩
  case idleFree =>
    obtain ⟨hb, hne⟩ : s.sync.isBusy w = false ∧ s.sync.numFreeWorkers ≠ n := by
      simpa using hretests
    rw [if_neg hne] at hs
    cases hs
    exact ⟨_, rfl, hsame _ (by simp [Worker.fresh, Worker.goto, hpc])
      (by simp [Worker.place, Worker.goto, hpc, hb])⟩
  case waitFullAgain =>
    rw [if_pos (by simpa using hretests)] at hs
    cases hs
    exact ⟨_, rfl, hsame _ (by simp [Worker.fresh, Worker.goto, hpc])
      (by simp [Worker.place, Worker.goto, hpc])⟩
  all_goals
    cases hs
    exact ⟨_, rfl, hsame _ (by simp [Worker.fresh, hpc]) (by simp [Worker.place, hpc])⟩

/-! ## The other steps -/

theorem left_main (hcost : ∀ u, s'.cost p start n u = s.cost p start n u)
    (hm : s'.mainPc.left n < s.mainPc.left n) : left p start n s' < left p start n s := by
  unfold left
  rw [Finset.sum_congr rfl fun u _ => hcost u]
  exact Nat.add_lt_add_left hm _

/-- `Run` has paid for what worker 0 does until it has loaded the start house. -/
theorem left_begin {k : Nat} (h : Waiting n s) (hn : 0 < n) (hm : s.mainPc = .create k)
    (hk : ¬k < n) : left p start n (s.begin start n) < left p start n s := by
  have hmem : 0 ∈ Finset.range n := Finset.mem_range.mpr hn
  have hzero : (s.begin start n).cost p start n 0 ≤ s.cost p start n 0 + 40 := by
    show Worker.cost p n (s.stopped p start) s.checkMap (Function.update s.sync.isBusy 0 true 0)
      (s.worker 0) ≤ _
    unfold St.cost Worker.cost
    rw [Function.update_self, Nat.add_assoc]
    refine Nat.add_le_add_left ?_ _
    rcases h.pc 0 with hpc | hpc <;> simp only [Worker.place, hpc, if_true] <;> split <;> omega
  have hrest : ∑ u ∈ (Finset.range n).erase 0, (s.begin start n).cost p start n u =
      ∑ u ∈ (Finset.range n).erase 0, s.cost p start n u := by
    refine Finset.sum_congr rfl fun u hu => ?_
    show Worker.cost p n (s.stopped p start) s.checkMap (Function.update s.sync.isBusy 0 true u)
      (s.worker u) = _
    rw [Function.update_of_ne (Finset.ne_of_mem_erase hu)]
    rfl
  have hmain : (s.begin start n).mainPc.left n + 42 ≤ s.mainPc.left n := by
    rw [hm]
    show n - 0 + 1 + 42 ≤ n - k + n + 43
    omega
  unfold left
  rw [← Finset.add_sum_erase _ _ hmem, ← Finset.add_sum_erase _ (s.cost p start n) hmem, hrest]
  omega

theorem left_run (h : WorkInv p start n s) (hn : 0 < n) (hs : run start n s = some s') :
    left p start n s' < left p start n s := by
  have hsearch := h.searching
  unfold Searching at hsearch
  unfold run at hs
  cases hm : s.mainPc with
  | create k =>
    rw [hm] at hsearch
    simp only [hm] at hs
    split at hs <;> cases hs
    · next hk =>
      have hbusy : Function.update s.sync.isBusy k false = s.sync.isBusy := by
        rw [hsearch.1.1]
        exact Function.update_eq_self k _
      refine left_main (fun u => ?_) ?_
      · show Worker.cost p n (s.stopped p start) s.checkMap
          (Function.update s.sync.isBusy k false u) (s.worker u) = _
        rw [hbusy]
        rfl
      · rw [hm]
        show n - (k + 1) + n + 43 < n - k + n + 43
        omega
    · next hk => exact left_begin hsearch.1 hn hm hk
  | join k =>
    simp only [hm] at hs
    split at hs
    · split at hs <;> cases hs
      refine left_main (fun u => rfl) ?_
      rw [hm]
      show n - (k + 1) + 1 < n - k + 1
      omega
    · cases hs
      refine left_main (fun u => rfl) ?_
      rw [hm]
      exact Nat.succ_pos _
  | returned => simp [hm] at hs

theorem workInv_step {a : Act} (h : WorkInv p start n s) (hstart : start ∈ p.houses) (hn : 0 < n)
    (hn' : n ≤ 64) (hs : step p start n s a = some s') : WorkInv p start n s' := by
  cases a with
  | worker w =>
    simp only [step] at hs
    split at hs
    · next hw =>
      refine ⟨searchInv_worker h.toSearchInv hstart hn' hw.1 hs, fun u => ?_⟩
      obtain ⟨-, l, hl⟩ := frame_beginWorkAt hs
      have hstop : Stopped p start s → Stopped p start s' := h.found.stopped_worker hstart hs
      by_cases hu : u = w
      · subst hu
        refine (slim_worker (h.slim u) (fun hpc => ?_) hs).mono hstop
        obtain ⟨D, -, hteam⟩ := h.atLevel (w := u) hn (by simp [retests, hpc])
        have hrole : RoleOk p.graph start (nbrs p) D (Stopped p start s)
            (role D s.sync u (s.worker u)) := hteam.roles u
        rw [show role D s.sync u (s.worker u) = .out (s.worker u).next by simp [role, hpc]] at hrole
        exact hrole
      · rw [hl, Function.update_of_ne hu]
        exact (h.slim u).mono hstop
    · cases hs
  | main =>
    have hframe : s'.worker = s.worker ∧ s'.visitBits = s.visitBits := by
      simp only [step, run] at hs
      repeat' split at hs
      all_goals first | (cases hs; exact ⟨rfl, rfl⟩) | cases hs
    refine ⟨searchInv_run h.toSearchInv hn hs, fun u => ?_⟩
    unfold Stopped
    rw [hframe.1, hframe.2]
    exact h.slim u
  | other j =>
    simp only [step] at hs
    split at hs <;> cases hs
    next hj =>
      exact ⟨searchInv_other h.toSearchInv hj.1 hj.2, fun u => (h.slim u).mono (stopped_or hj.1 hj.2)⟩

theorem workInv_of_reachable (hstart : start ∈ p.houses) (hn : 0 < n) (hn' : n ≤ 64)
    (hr : (search p start n).Reachable s) : WorkInv p start n s :=
  (search p start n).invariant (WorkInv p start n)
    ⟨searchInv_initial p start n, fun _ _ => rfl⟩
    (fun _ _ _ h hs => workInv_step h hstart hn hn' hs) hr

end

end MulticorePrac.MultiBfs
