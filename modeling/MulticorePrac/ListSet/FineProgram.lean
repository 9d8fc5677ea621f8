import MulticorePrac.ListSet.Program
import MulticorePrac.ListSet.FineLinear
import MulticorePrac.ListSet.Deadlock

/-!
# Lab11: the program with the fine-grained list

Each step of an operation brings it nearer to its end: along the list the rank of `curr` goes
up, and no rank is above that of the tail.  A thread is never overtaken on the way by nodes
that are put in before `curr`, for it holds the lock there.  So an operation ends after a
number of steps that does not depend on the other threads, once it gets its locks; and since
the threads never wait in a cycle, the program ends.

The keys of the workload are below `INT_MAX` (`Input`), and the mutexes of the head and the
tail work (`listInit`).
-/

namespace MulticorePrac.ListSet.Fine

def impl : Impl Thread := ⟨machine, fun l => decide (l.pc = .idle), Thread.calls⟩

/-! ## The calls and the history -/

section
variable {s s' : St} {p : List Nat} {S : Finset Int} {t : Nat}

theorem decideStep_moved (s : St) (l : Thread) :
    impl.idle (decideStep s l) = false ∧ (decideStep s l).calls = l.calls := by
  unfold decideStep
  split
  · split <;> exact ⟨rfl, rfl⟩
  · split <;> exact ⟨rfl, rfl⟩
  · exact ⟨rfl, rfl⟩

theorem moved_run (hs : runStep s t = some s') : ∃ l, impl.Moved s s' t l := by
  unfold runStep at hs
  cases hpc : (s.thread t).pc <;> simp only [hpc] at hs
  case idle | malloc => cases hs
  case lockHead | lockCurr =>
    exact ⟨_, Impl.moved_of_lock hs (decide_eq_false (by rw [hpc]; decide)) rfl rfl⟩
  case test =>
    cases hs
    refine ⟨_, decide_eq_false (by rw [hpc]; decide), rfl, Or.inl ⟨decide_eq_false ?_, rfl, rfl⟩⟩
    dsimp only
    split <;> decide
  case decide =>
    cases hs
    obtain ⟨h1, h2⟩ := decideStep_moved s (s.thread t)
    exact ⟨_, decide_eq_false (by rw [hpc]; decide), rfl, Or.inl ⟨h1, h2, rfl⟩⟩
  case unlockCurr =>
    cases hs
    refine ⟨_, decide_eq_false (by rw [hpc]; decide), rfl, Or.inl ⟨decide_eq_false ?_, rfl, rfl⟩⟩
    dsimp only
    split <;> decide
  case ret =>
    cases hs
    exact ⟨_, decide_eq_false (by rw [hpc]; decide), rfl, Or.inr ⟨_, rfl, rfl, rfl⟩⟩
  all_goals
    cases hs
    exact ⟨_, decide_eq_false (by rw [hpc]; decide), rfl, Or.inl ⟨rfl, rfl, rfl⟩⟩

theorem moved_malloc {addr junk : Nat} (hs : mallocStep s t addr junk = some s') :
    ∃ l, impl.Moved s s' t l := by
  obtain ⟨hc, hs⟩ := Option.ite_none_right_eq_some.mp hs
  cases hs
  exact ⟨_, decide_eq_false (by rw [hc.1]; decide), rfl, Or.inl ⟨rfl, rfl, rfl⟩⟩

theorem moved_inside {a : Act} (ha : a.Inside t) (hs : step s a = some s') :
    ∃ l, impl.Moved s s' t l := by
  rcases ha with rfl | ⟨addr, junk, rfl⟩
  · exact moved_run hs
  · exact moved_malloc hs

end

theorem isSet : impl.IsSet := by
  refine ⟨fun t => ⟨rfl, rfl⟩, rfl, fun s t op s' hs => ?_,
    fun s t a s' ha hs => moved_inside ha hs, fun s hs => ?_⟩
  · obtain ⟨hc, hs⟩ := Option.ite_none_right_eq_some.mp hs
    cases hs
    refine ⟨_, rfl, decide_eq_false ?_, rfl, rfl⟩
    dsimp only
    split <;> decide
  · obtain ⟨p, S, h, hm⟩ := inv_of_reachable hs
    obtain ⟨ns, rfl, hasc, rfl⟩ := h.path.between
    refine ⟨ns, hm.linearizable, hasc, h.path.tail_notMem, fun hidle => ?_⟩
    · refine List.isChain_iff_forall_rel_of_append_cons_cons.mpr fun a b l r hl => ?_
      rcases h.links a b (follows_iff.mpr ⟨l, r, hl⟩) with hn | ⟨u, hu, -⟩
      · exact hn
      · have := of_decide_eq_true (hidle u)
        rw [hu] at this
        cases this

/-! ## The steps of an operation -/

/-- How many steps an operation takes from here, at most. -/
def Thread.left (key : Nat → Int) (l : Thread) : Nat :=
  match l.pc with
  | .idle => 0
  | .ret => 1
  | .free => 2
  | .unlockCurr => 3
  | .unlockPrev => 4
  | .linkNode | .unlink => 5
  | .linkPrev | .readUnlink => 6
  | .decide => 7
  | .lockCurr => 4 * toTail key l.curr + 9
  | .test => 4 * toTail key l.curr + 8
  | .unlockStep => 4 * toTail key l.curr + 7
  | .readNext => 4 * toTail key l.curr + 6
  | .readHead => 4 * toTail key HEAD + 6
  | .lockHead => 4 * toTail key HEAD + 7
  | .malloc => 4 * toTail key HEAD + 8

section
variable {s s' : St} {p : List Nat} {S : Finset Int} {t : Nat}

theorem left_decideStep (s : St) (l : Thread) (key : Nat → Int) :
    (decideStep s l).left key < 7 := by
  unfold decideStep
  split
  · split <;> simp [Thread.left]
  · split <;> simp [Thread.left]
  · simp [Thread.left]

/-- The node that a thread comes to is nearer to the tail. -/
theorem toTail_placed (h : Inv s p S) {l : Thread} (hl : s.thread t = l) (hpc : l.pc = .lockCurr) :
    toTail s.key l.curr < toTail s.key l.prev := by
  have hplaced := h.placed t
  rw [hl, Placed, hpc] at hplaced
  exact toTail_lt (h.path.asc.lt_of_follows hplaced.1) (h.path.rank_le hplaced.1.right_mem)

theorem left_run {p' : List Nat} {S' : Finset Int} (h : Inv s p S) (h' : Inv s' p' S')
    (hs : runStep s t = some s') :
    s'.key = s.key ∧ (s'.thread t).left s'.key < (s.thread t).left s.key := by
  unfold runStep at hs
  cases hpc : (s.thread t).pc <;> simp only [hpc] at hs
  case idle | malloc => cases hs
  case lockHead | lockCurr =>
    obtain ⟨-, hs⟩ := Option.ite_none_right_eq_some.mp hs
    cases hs
    simp [State.setThread, Thread.left, hpc]
  case readHead =>
    cases hs
    have hnear := toTail_placed (t := t) h' (Function.update_self ..) rfl
    have hprev : (s.thread t).prev = HEAD := by
      have hplaced := h.placed t
      rwa [Placed, hpc] at hplaced
    refine ⟨rfl, ?_⟩
    simp only [State.setThread, Thread.left, hpc, Function.update_self, hprev] at hnear ⊢
    omega
  case readNext =>
    cases hs
    have hnear := toTail_placed (t := t) h' (Function.update_self ..) rfl
    refine ⟨rfl, ?_⟩
    simp only [State.setThread, Thread.left, hpc, Function.update_self] at hnear ⊢
    omega
  case test =>
    cases hs
    refine ⟨rfl, ?_⟩
    by_cases hlt : s.key (s.thread t).curr < (s.thread t).op.key
    · simp [State.setThread, Thread.left, hpc, hlt]
    · simp [State.setThread, Thread.left, hpc, hlt]
  case decide =>
    cases hs
    refine ⟨rfl, ?_⟩
    have hlt := left_decideStep s (s.thread t) s.key
    simpa [State.setThread, Thread.left, hpc] using hlt
  case unlockCurr =>
    cases hs
    refine ⟨rfl, ?_⟩
    by_cases hfree : (s.thread t).frees = true
    · simp [State.unlock, State.setThread, Thread.left, hpc, hfree]
    · simp [State.unlock, State.setThread, Thread.left, hpc, hfree]
  all_goals
    cases hs
    simp [State.unlock, State.write, State.setThread, Thread.left, hpc]

/-- Allocating a node does not change what the other threads have before them. -/
theorem left_of_live (h : Inv s p S) (u : Nat) {key : Nat → Int}
    (hkey : ∀ x, s.live x = true → key x = s.key x) :
    (s.thread u).left key = (s.thread u).left s.key := by
  have hsame : ∀ x ∈ p, toTail key x = toTail s.key x := by
    intro x hx
    unfold toTail rank
    rw [hkey x (h.live x hx)]
  have hplaced := h.placed u
  unfold Placed at hplaced
  unfold Thread.left
  cases hpc : (s.thread u).pc <;> rw [hpc] at hplaced <;> dsimp only
  case malloc | lockHead | readHead => rw [hsame _ h.path.head_mem]
  case lockCurr | test | unlockStep => rw [hsame _ hplaced.1.right_mem]
  case readNext => rw [hsame _ hplaced.1]

end

/-- The steps that the first `n` threads have before them in their operations. -/
def cost (n : Nat) (s : St) : Nat := ∑ t ∈ Finset.range n, (s.thread t).left s.key

def budget (_ : Nat) : Nat := 4 * 4294967296 + 9

section
variable {s s' : St} {t : Nat}

theorem cost_inside {n : Nat} {a : Act} (hs : machine.Reachable s) (ht : t < n) (ha : a.Inside t)
    (hstep : step s a = some s') : cost n s' < cost n s := by
  obtain ⟨p, S, h, hm⟩ := inv_of_reachable hs
  have hrest : ∀ u, u ≠ t → (s'.thread u).left s'.key = (s.thread u).left s.key := by
    intro u hu
    obtain ⟨l, hl⟩ := moved_inside ha hstep
    rw [hl.thread, Function.update_of_ne hu]
    rcases ha with rfl | ⟨addr, junk, rfl⟩
    · obtain ⟨p', S', h', -⟩ := matches_run h hm hstep
      rw [(left_run h h' hstep).1]
    · obtain ⟨hc, hstep⟩ := Option.ite_none_right_eq_some.mp hstep
      cases hstep
      refine left_of_live h u fun x hx => Function.update_of_ne ?_ _ _
      rintro rfl
      rw [hc.2.1] at hx
      cases hx
  have hlt : (s'.thread t).left s'.key < (s.thread t).left s.key := by
    rcases ha with rfl | ⟨addr, junk, rfl⟩
    · obtain ⟨p', S', h', -⟩ := matches_run h hm hstep
      exact (left_run h h' hstep).2
    · obtain ⟨hc, hstep⟩ := Option.ite_none_right_eq_some.mp hstep
      cases hstep
      simp [State.setThread, Thread.left, hc.1, toTail_head]
  have hsum := Machine.sum_of_ne ht hrest
  unfold cost
  omega

theorem cost_call {n : Nat} {op : Op} (ht : t < n) (hstep : callStep s t op = some s') :
    cost n s' < cost n s + budget n := by
  obtain ⟨hc, hstep⟩ := Option.ite_none_right_eq_some.mp hstep
  cases hstep
  have hsum := Machine.sum_update (Thread.left s.key) s.thread ht { s.thread t with
    op := op
    pc := if op.needsNode then .malloc else .lockHead }
  have hnew : Thread.left s.key { s.thread t with
      op := op
      pc := if op.needsNode then .malloc else .lockHead } < budget n := by
    unfold Thread.left budget
    cases op.needsNode <;> simp [toTail_head]
  unfold cost
  simp only [State.setThread] at *
  omega

/-- A step of an operation allocates nothing. -/
theorem live_run (hs : runStep s t = some s') {x : Nat} (hx : s'.live x = true) :
    s.live x = true := by
  unfold runStep at hs
  cases hpc : (s.thread t).pc <;> simp only [hpc] at hs
  case idle | malloc => cases hs
  case lockHead | lockCurr =>
    obtain ⟨-, hs⟩ := Option.ite_none_right_eq_some.mp hs
    cases hs
    exact hx
  case free =>
    cases hs
    by_cases he : x = (s.thread t).curr
    · simp [he] at hx
    · simpa [he] using hx
  all_goals
    cases hs
    exact hx

theorem roomy_of_reachable (hs : machine.Reachable s) : s.Roomy := by
  refine machine.invariant State.Roomy (roomy_listInit _) (fun s a s' h hstep => ?_) hs
  cases a with
  | call t op =>
    obtain ⟨-, hstep⟩ := Option.ite_none_right_eq_some.mp hstep
    cases hstep
    exact h
  | run t => exact h.step NULL fun x _ hx => live_run hstep hx
  | malloc t addr junk =>
    obtain ⟨-, hstep⟩ := Option.ite_none_right_eq_some.mp hstep
    cases hstep
    refine h.step addr fun x hne hx => ?_
    simpa [hne] using hx

/-- While an operation is in progress, some thread can go on. -/
theorem exists_inside (hs : machine.Reachable s) (hidle : (s.thread t).pc ≠ .idle) :
    ∃ u a s', a.Inside u ∧ machine.step s a = some s' := by
  obtain ⟨p, S, h, -⟩ := inv_of_reachable hs
  obtain ⟨u, -, -, hpc | ⟨s', hstep⟩⟩ := h.deadlock_free.2 t hidle
  · obtain ⟨addr, h1, h2⟩ := (roomy_of_reachable hs).exists_free
    exact ⟨u, .malloc u addr 0, _, Or.inr ⟨addr, 0, rfl⟩, if_pos ⟨hpc, h1, h2⟩⟩
  · exact ⟨u, .run u, s', Or.inl rfl, hstep⟩

end

theorem ends : impl.Ends cost budget where
  initial _ := Finset.sum_eq_zero fun _ _ => rfl
  budget_pos _ := Nat.succ_pos _
  callable _ _ _ hidle hop := ⟨_, if_pos ⟨of_decide_eq_true hidle, hop⟩⟩
  progress _ _ hs hidle := exists_inside hs (of_decide_eq_false hidle)
  pays_call _ _ _ _ _ _ ht hstep := cost_call ht hstep
  pays_inside _ _ _ _ _ hs ht ha hstep := cost_inside hs ht ha hstep

/-- In every run of the program with the fine-grained list, when no key is used by two threads, every
call returns what it returns when its thread is alone; and `main` prints `correct!` exactly when
`result.txt` has the keys that the threads leave when they are alone, in ascending order. -/
theorem fine_grained_results {i : Input} {s : Prog Thread} (hpart : Coarse.Partitioned i.ops)
    (hs : (program impl i).Reachable s) :
    (∀ t j r, .ret (t, j) r ∈ s.list.hist → (setObject.run ∅ (i.ops t)).2[j]? = some r) ∧
    ∀ valid, s.main = .printed valid →
      (valid = true ↔ i.result.Pairwise (· < ·) ∧ i.result.toFinset = i.expected) :=
  isSet.results hpart hs

/-- Thread 0 adds 7 and passes over an entry of no known type; thread 1 adds 3. -/
def twoWorks : Input where
  numThread := 2
  work
    | 0 => [⟨'A', 7⟩, ⟨'-', 0⟩]
    | 1 => [⟨'A', 3⟩]
    | _ => []
  result := [3, 7]
  inRange t := by
    match t with
    | 0 => decide
    | 1 => decide
    | t + 2 => exact fun w hw => by cases hw

theorem twoWorks_partitioned : Coarse.Partitioned twoWorks.ops := by
  have hall : ∀ op ∈ twoWorks.ops 0, ∀ op' ∈ twoWorks.ops 1, op.key ≠ op'.key := by decide
  intro t u htu op hop op' hop'
  match t, u with
  | 0, 0 => exact absurd rfl htu
  | 1, 1 => exact absurd rfl htu
  | 0, 1 => exact hall op hop op' hop'
  | 1, 0 => exact (hall op' hop' op hop).symm
  | t + 2, _ =>
    rw [twoWorks.ops_of_ge (Nat.le_add_left 2 t)] at hop
    cases hop
  | _, u + 2 =>
    rw [twoWorks.ops_of_ge (Nat.le_add_left 2 u)] at hop'
    cases hop'

def twoWorksRun : List ProgAct :=
  List.replicate 3 .main ++ [.next 0, .malloc 0 3 0, .next 1, .malloc 1 4 9] ++
    List.replicate 10 (.run 0) ++ List.replicate 10 (.run 1) ++ [.next 0] ++ List.replicate 6 .main

/-- Where the run ends. -/
theorem twoWorksRun_ends : ∃ s, (program impl twoWorks).run twoWorksRun = some s ∧
    s.main = .printed true ∧ (s.list.thread 0).pc = .idle ∧ (s.list.thread 1).pc = .idle ∧
    s.idx 0 = 2 ∧ s.idx 1 = 1 := by
  have hs : (((program impl twoWorks).run twoWorksRun).any fun s => decide (s.main = .printed true ∧
      (s.list.thread 0).pc = .idle ∧ (s.list.thread 1).pc = .idle ∧ s.idx 0 = 2 ∧
      s.idx 1 = 1)) = true := by decide +kernel
  obtain ⟨s, hrun, hp⟩ := (Option.any_eq_true _ _).mp hs
  exact ⟨s, hrun, of_decide_eq_true hp⟩

theorem fine_grained_results_twoWorks : Coarse.Partitioned twoWorks.ops ∧
    ∃ s, (program impl twoWorks).run twoWorksRun = some s ∧ s.main = .printed true ∧
      twoWorks.result.toFinset = twoWorks.expected := by
  obtain ⟨s, hrun, hmain, -⟩ := twoWorksRun_ends
  have hright := (fine_grained_results twoWorks_partitioned ⟨_, hrun⟩).2 true hmain
  exact ⟨twoWorks_partitioned, s, hrun, hmain, (hright.mp rfl).2⟩

/-- No run of the program with the fine-grained list goes on forever, however the threads are
scheduled, and a run that cannot go on has printed its result. -/
theorem fine_grained_ends (i : Input) :
    (∀ as s, (program impl i).run as = some s → as.length ≤ i.bound budget) ∧
    ∀ s, (program impl i).Reachable s → (∀ a, (program impl i).step s a = none) →
      ∃ valid, s.main = .printed valid :=
  ⟨fun _ _ hr => ends.length_le isSet hr, fun _ hs hstuck => ends.printed isSet hs hstuck⟩

/-- After the run nobody can take a step. -/
theorem fine_grained_ends_twoWorks : ∃ s, (program impl twoWorks).run twoWorksRun = some s ∧
    (∀ a, (program impl twoWorks).step s a = none) ∧
    twoWorksRun.length ≤ twoWorks.bound budget ∧ ∃ valid, s.main = .printed valid := by
  obtain ⟨s, hrun, hmain, hidle0, hidle1, h0, h1⟩ := twoWorksRun_ends
  have hthread : ∀ t, s.created twoWorks t = true → (s.list.thread t).pc = .idle ∧
      (twoWorks.work t)[s.idx t]? = none := by
    intro t hc
    unfold Prog.created at hc
    rw [hmain] at hc
    have ht : t < 2 := of_decide_eq_true hc
    obtain rfl | rfl : t = 0 ∨ t = 1 := by omega
    · rw [h0]
      exact ⟨hidle0, rfl⟩
    · rw [h1]
      exact ⟨hidle1, rfl⟩
  have hstuck : ∀ a, (program impl twoWorks).step s a = none := by
    intro a
    cases a with
    | main =>
      show mainStep impl twoWorks s = none
      rw [mainStep, hmain]
    | next t =>
      refine ite_eq_right_iff.mpr fun hc => ?_
      rw [nextStep, (hthread t hc).2, ite_self]
    | run t =>
      refine ite_eq_right_iff.mpr fun hc => Option.map_eq_none_iff.mpr ?_
      show runStep s.list t = none
      rw [runStep]
      simp only [(hthread t hc).1]
    | malloc t addr junk =>
      refine ite_eq_right_iff.mpr fun hc => Option.map_eq_none_iff.mpr (if_neg fun hm => ?_)
      rw [(hthread t hc).1] at hm
      cases hm.1
  exact ⟨s, hrun, hstuck, (fine_grained_ends twoWorks).1 _ s hrun,
    (fine_grained_ends twoWorks).2 s ⟨_, hrun⟩ hstuck⟩

end MulticorePrac.ListSet.Fine
