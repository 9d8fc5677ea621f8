import MulticorePrac.Lib.Fair
import MulticorePrac.MultiBfs.Work

/-!
# `Run` returns

`returns_exact`: under every schedule that comes back to `Run` and to each worker, whatever
the other searches do to the bitmap, `Run` returns, and then every house that can be
reached was reported with its distance or has its bit from another search.  A worker that
spins is held by the others; the one that holds them can move, and `left` says that it
does not do so forever.  A worker that leaves a spin loop may first test values that it
loaded before (`turns`).

`steps_bounded`: the number of steps besides the loads and tests with which a worker stays
in a spin loop is at most `n * V` times a factor that is linear in the number of workers.

Both are about workers that have their buffers: the pool that these come from is not part of
the search.
-/

namespace MulticorePrac.MultiBfs

open House (Bits Problem unchecked unchecked_le)

/-- How often worker `w` tests again before it leaves a spin loop that does not hold it. -/
def turns (s : St) (w : Nat) : Nat :=
  let l := s.worker w
  let full := s.sync.workerDoneFullBits (l.dist % 2)
  match l.pc with
  | .idle => 1
  | .waitDone => 2
  | .waitFull => if l.bits &&& full = full then 1 else 4
  | .waitFullAgain => if l.bits = full then 0 else 3
  | _ => 0

/-- Worker `w` has not ended and no mutex stops it. -/
def Able (s : St) (w : Nat) : Prop :=
  let pc := (s.worker w).pc
  (pc ≠ .finished ∧ pc ≠ .fault) ∧
  (s.sync.workerMakingMutex = none ∨ pc.inMaking = true ∨ pc.inDone = true) ∧
  (s.sync.workerDoneBitsMutex = none ∨ pc.inMaking = true ∨ pc.inDone = true)

/-- The actions that bring the search nearer to its end. -/
def Helps (n : Nat) (s : St) : Act → Prop
  | .worker w => (w < n ∧ s.mainPc.Created w) ∧ ¬Spins n s w ∧ Able s w
  | .main =>
    match s.mainPc with
    | .create _ => True
    | .join k => k < n → (s.worker k).pc = .finished
    | .returned => False
  | .other _ => False

def turnsOf (s : St) : Act → Nat
  | .worker w => turns s w
  | _ => 0

section
variable {p : Problem} {start n D : Nat} {s s' : St} {w : Nat} {a b : Act}

theorem helps_enabled (h : Helps n s a) : ∃ s', step p start n s a = some s' := by
  cases a with
  | worker w =>
    obtain ⟨hw, -, hpc, hm, hd⟩ := h
    simp only [step, if_pos hw]
    exact beginWorkAt_enabled p start n s w hpc hm hd
  | main =>
    unfold Helps at h
    simp only [step, run]
    cases hm : s.mainPc with
    | create k => dsimp only; split <;> exact ⟨_, rfl⟩
    | join k =>
      rw [hm] at h
      dsimp only
      split
      · next hk => rw [if_pos (h hk)]; exact ⟨_, rfl⟩
      · exact ⟨_, rfl⟩
    | returned => rw [hm] at h; exact h.elim
  | other j => exact h.elim

/-- Until `Run` returns some action helps. -/
theorem exists_helps (h : SearchInv p start n s) (hret : s.mainPc ≠ .returned) :
    ∃ a, (a = .main ∨ ∃ w < n, a = .worker w) ∧ Helps n s a := by
  have hsearch := h.searching
  unfold Searching at hsearch
  cases hm : s.mainPc with
  | create k => exact ⟨.main, Or.inl rfl, by simp [Helps, hm]⟩
  | returned => exact absurd hm hret
  | join k =>
    rw [hm] at hsearch
    obtain ⟨D, hinv, -⟩ := hsearch
    have hcreated : ∀ w, s.mainPc.Created w := fun w => by rw [hm]; trivial
    by_cases hk : k < n → (s.worker k).pc = .finished
    · exact ⟨.main, Or.inl rfl, by simpa [Helps, hm] using hk⟩
    obtain ⟨hk, hkf⟩ := Classical.not_imp.mp hk
    -- a worker inside a mutex can move; with both free, one that is not held
    have hinside : ∀ w, (s.worker w).pc.inMaking = true ∨ (s.worker w).pc.inDone = true →
        ∃ a, (a = .main ∨ ∃ w < n, a = Act.worker w) ∧ Helps n s a := by
      intro w hin
      obtain ⟨hw, hspin, -⟩ : w < n ∧ ¬Spins n s w ∧ ∃ s', beginWorkAt p start n s w = some s' :=
        hinv.moves_inside hin
      have hne : (s.worker w).pc ≠ .finished := fun hc => by
        rw [hc] at hin
        exact absurd hin (by decide)
      exact ⟨.worker w, Or.inr ⟨w, hw, rfl⟩, ⟨hw, hcreated w⟩, hspin, ⟨hne, hinv.ne_fault w⟩,
        Or.inr hin, Or.inr hin⟩
    cases hmk : s.sync.workerMakingMutex with
    | some w => exact hinside w (Or.inl ((hinv.making w).mp hmk))
    | none =>
    cases hdn : s.sync.workerDoneBitsMutex with
    | some w => exact hinside w (Or.inr ((hinv.doneMutex w).mp hdn))
    | none =>
      by_contra hno
      refine hkf (hinv.all_finished hmk (fun w hw => ?_) k hk)
      by_contra hc
      obtain ⟨hf, hspin⟩ := not_or.mp hc
      exact hno ⟨.worker w, Or.inr ⟨w, hw, rfl⟩, ⟨hw, hcreated w⟩, hspin, ⟨hf, hinv.ne_fault w⟩,
        Or.inl hmk, Or.inl hdn⟩

/-- A test again by a worker that is not held brings it nearer to the end of its loop. -/
theorem turns_retest (hretests : retests n s w = true) (hspin : ¬Spins n s w)
    (hs : beginWorkAt p start n s w = some s') : ¬Spins n s' w ∧ turns s' w < turns s w := by
  unfold retests at hretests
  unfold Spins at hspin
  cases hpc : (s.worker w).pc <;> simp only [hpc, Bool.false_eq_true] at hretests hspin <;>
    simp only [beginWorkAt, idleStep, barrierStep, hpc] at hs
  case idle =>
    have hb : s.sync.isBusy w = false := by simpa using hretests
    rw [hb, if_neg (by decide)] at hs
    cases hs
    simp only [Spins, turns, St.move, Function.update_self, Worker.goto, hpc]
    exact ⟨hspin, by decide⟩
  case idleFree => exact absurd (by simpa using hretests) hspin
  case waitDone =>
    cases hs
    simp only [Spins, turns, St.move, Function.update_self, hpc]
    exact ⟨hspin, by rw [if_pos (not_not.mp hspin)]; decide⟩
  case waitFull =>
    cases hs
    simp only [Spins, turns, St.move, Function.update_self, hpc]
    refine ⟨hspin, ?_⟩
    split <;> decide
  case waitFullAgain =>
    have hne : (s.worker w).bits ≠ s.sync.workerDoneFullBits ((s.worker w).dist % 2) := by
      simpa using hretests
    rw [if_pos hne] at hs
    cases hs
    simp only [Spins, turns, St.move, Function.update_self, Worker.goto, hpc, if_neg hne]
    exact ⟨hspin, by decide⟩

/-- A worker in a spin loop needs no mutex. -/
theorem able_retest (hretests : retests n s w = true) (h : Able s w)
    (hs : beginWorkAt p start n s w = some s') : Able s' w := by
  have hfree : (s.worker w).pc.inMaking = false ∧ (s.worker w).pc.inDone = false ∧
      (s'.worker w).pc ≠ .finished ∧ (s'.worker w).pc ≠ .fault := by
    unfold retests at hretests
    cases hpc : (s.worker w).pc <;> simp only [hpc, Bool.false_eq_true] at hretests <;>
      simp only [beginWorkAt, idleStep, barrierStep, hpc] at hs
    case idleFree =>
      rw [if_neg (by simpa using hretests : s.sync.isBusy w = false ∧ _).2] at hs
      cases hs
      simp [St.move, Worker.goto, Pc.inMaking, Pc.inDone]
    all_goals repeat' split at hs
    all_goals cases hs
    all_goals simp [St.move, Worker.goto, Pc.inMaking, Pc.inDone]
  obtain ⟨l, rfl, -⟩ := retest_worker hretests hs
  unfold Able at h
  simp only [hfree.1, hfree.2.1, Bool.false_eq_true, or_false] at h
  exact ⟨hfree.2.2, Or.inl h.2.1, Or.inl h.2.2⟩

/-- A test in vain of another worker changes nothing for an action that helps. -/
theorem helps_retest {u : Nat} (hretests : retests n s u = true) (ha : Helps n s a)
    (hs : beginWorkAt p start n s u = some s') :
    Helps n s' a ∧ turnsOf s' a ≤ turnsOf s a ∧ (.worker u = a → turnsOf s' a < turnsOf s a) := by
  obtain ⟨l, hl, -⟩ := retest_worker hretests hs
  have hmain : s'.mainPc = s.mainPc := by rw [hl]; rfl
  have hsync : s'.sync = s.sync := by rw [hl]; rfl
  have hother : ∀ w, w ≠ u → s'.worker w = s.worker w := by
    intro w hw
    rw [hl]
    exact Function.update_of_ne hw _ _
  cases a with
  | other j => exact ha.elim
  | main =>
    refine ⟨?_, Nat.le_refl _, nofun⟩
    unfold Helps at ha ⊢
    rw [hmain]
    cases hm : s.mainPc <;> simp only [hm] at ha ⊢
    next k =>
      intro hk
      have hfin := ha hk
      have hne : k ≠ u := by
        rintro rfl
        simp [retests, hfin] at hretests
      rw [hother k hne]
      exact hfin
  | worker w =>
    obtain ⟨hw, hspin, hable⟩ := ha
    rw [← hmain] at hw
    by_cases hwu : w = u
    · subst hwu
      obtain ⟨hspin', hturns⟩ := turns_retest hretests hspin hs
      exact ⟨⟨hw, hspin', able_retest hretests hable hs⟩, Nat.le_of_lt hturns, fun _ => hturns⟩
    · have hw' : s'.worker w = s.worker w := hother w hwu
      refine ⟨⟨hw, ?_, ?_⟩, Nat.le_of_eq ?_, fun hc => absurd (Act.worker.inj hc).symm hwu⟩
      · unfold Spins
        rw [hw', hsync]
        exact hspin
      · unfold Able
        rw [hw', hsync]
        exact hable
      · show turns s' w = turns s w
        unfold turns
        rw [hw', hsync]

theorem helps_step (h : WorkInv p start n s) (hstart : start ∈ p.houses) (hn : 0 < n)
    (ha : Helps n s a) (hs : step p start n s b = some s') :
    left p start n s' < left p start n s ∨ (left p start n s' ≤ left p start n s ∧ Helps n s' a ∧
      turnsOf s' a ≤ turnsOf s a ∧ (b = a → turnsOf s' a < turnsOf s a)) := by
  cases b with
  | main => exact Or.inl (left_run h hn hs)
  | other j =>
    simp only [step] at hs
    split at hs <;> cases hs
    next hj =>
      refine Or.inr ⟨left_of_stop (stopped_or hj.1 hj.2) rfl rfl rfl rfl, ?_, Nat.le_of_eq ?_, ?_⟩
      · cases a <;> exact ha
      · cases a <;> rfl
      · rintro rfl
        exact ha.elim
  | worker u =>
    simp only [step] at hs
    split at hs
    · next hu =>
      cases hretests : retests n s u with
      | false => exact Or.inl (left_worker h hstart hu.1 hretests hs)
      | true =>
        obtain ⟨-, -, hleft⟩ := retest_worker hretests hs
        exact Or.inr ⟨Nat.le_of_eq hleft, helps_retest hretests ha hs⟩
    · cases hs

end

/-- `Run` and the workers. -/
def Ours (n : Nat) (a : Act) : Prop := a = .main ∨ ∃ w < n, a = .worker w

/-- **Every fair search ends with the exact answer**, once its workers have their buffers. -/
theorem returns_exact {p : Problem} {start n : Nat} (hstart : start ∈ p.houses) (hn : 0 < n)
    (hn' : n ≤ 64) {f : Nat → Act} (hf : Machine.Fair (Ours n) f) :
    ∃ k, let s := (search p start n).states f k
      s.mainPc = .returned ∧ ∀ v ∈ p.houses, v ≠ start → p.graph.Reachable start v →
        (v, p.graph.dist start v) ∈ s.updates ∨
          s.otherBits.getLsbD (p.context.houseIndexMap v) = true := by
  obtain ⟨k, -, hk⟩ := Machine.leadsTo (M := search p start n) hf (WorkInv p start n)
    (fun s => s.mainPc = .returned) (Helps n) (left p start n) turnsOf
    (fun s b s' h _ hs => workInv_step h hstart hn hn' hs)
    (fun s h hret => exists_helps h.toSearchInv hret)
    (fun s a _ _ ha => helps_enabled ha)
    (fun s a b s' h _ ha hs => helps_step h hstart hn ha hs)
    0 (workInv_of_reachable hstart hn hn' (Machine.Reachable.init _))
  have hinv := searchInv_of_reachable hstart hn hn' (Machine.reachable_states (M := search p start n) f k)
  refine ⟨k, hk, fun v hv hvs hreach => ?_⟩
  refine (hinv.all_reported hstart hk hv hvs hreach).imp_left fun ⟨d, hd⟩ => ?_
  obtain ⟨-, hdist⟩ := at_iff.mp (hinv.found.sound _ hd).2
  rwa [hdist]

/-- `Run` and both workers in turn. -/
theorem returns_exact_roundRobin :
    ∃ k, let s := (search forkProblem 1 2).states (Machine.roundRobin .main [.worker 0, .worker 1]) k
      s.mainPc = .returned ∧ ∀ v ∈ forkProblem.houses, v ≠ 1 → forkProblem.graph.Reachable 1 v →
        (v, forkProblem.graph.dist 1 v) ∈ s.updates ∨
          s.otherBits.getLsbD (forkProblem.context.houseIndexMap v) = true := by
  refine returns_exact (by decide) (by decide) (by decide)
    ((Machine.fair_roundRobin _ _).mono fun a ha => ?_)
  rcases ha with rfl | ⟨w, hw, rfl⟩
  · exact List.mem_cons_self
  · obtain rfl | rfl : w = 0 ∨ w = 1 := by omega
    · decide
    · decide

/-! ## How many steps it takes -/

/-- The steps of `Run` and of the workers but for the loads and tests with which a worker stays in a
spin loop. -/
def advances (n : Nat) (s : St) : Act → Bool
  | .worker w => !retests n s w
  | .main => true
  | .other _ => false

theorem advances_step {p : Problem} {start n : Nat} {s s' : St} {a : Act}
    (h : WorkInv p start n s) (hstart : start ∈ p.houses) (hn : 0 < n)
    (hs : step p start n s a = some s') :
    left p start n s' + (if advances n s a = true then 1 else 0) ≤ left p start n s := by
  cases a with
  | main => exact left_run h hn hs
  | other j =>
    simp only [step] at hs
    split at hs <;> cases hs
    next hj => exact left_of_stop (stopped_or hj.1 hj.2) rfl rfl rfl rfl
  | worker w =>
    simp only [step] at hs
    split at hs
    · next hw =>
      cases hretests : retests n s w with
      | false =>
        rw [if_pos (by simp [advances, hretests])]
        exact left_worker h hstart hw.1 hretests hs
      | true =>
        obtain ⟨-, -, hleft⟩ := retest_worker hretests hs
        rw [if_neg (by simp [advances, hretests])]
        exact Nat.le_of_eq hleft
    · cases hs

/-- A search may begin with bits that are set already. -/
theorem left_initial (p : Problem) (start n : Nat) (b : Bits) (hn : 0 < n) :
    left p start n { initial start with visitBits := b } ≤
      n * ((n + 54) * (p.numVertices + 1) + 1) + (2 * n + 42) := by
  have hcost : ∀ w, ({ initial start with visitBits := b } : St).cost p start n w ≤
      (n + 54) * (p.numVertices + 1) + 1 := by
    intro w
    refine Nat.add_le_add ?_ (Nat.le_refl 1)
    exact Nat.mul_le_mul_left _ (le_trans (Nat.sub_le _ _) (unchecked_le p _))
  have hsum := Finset.sum_le_card_nsmul (Finset.range n) _ _ fun w _ => hcost w
  rw [Finset.card_range, smul_eq_mul] at hsum
  refine Nat.add_le_add hsum ?_
  show n - 1 + n + 43 ≤ 2 * n + 42
  omega

/-- **The work is bounded**: in no run do `Run` and the workers make more steps than this, besides
the loads and tests with which a worker stays in a spin loop. -/
theorem steps_bounded {p : Problem} {start n : Nat} (hstart : start ∈ p.houses) (hn : 0 < n)
    (hn' : n ≤ 64) {as : List Act} {s : St} (hr : (search p start n).run as = some s) :
    (search p start n).stepsFrom (fun s a => advances n s a = true) (initial start) as ≤
      n * ((n + 54) * (p.numVertices + 1) + 1) + (2 * n + 42) := by
  have hle := Machine.stepsFrom_le (M := search p start n)
    (Q := fun s a => advances n s a = true) (WorkInv p start n) (left p start n)
    (fun s a s' h hs => ⟨workInv_step h hstart hn hn' hs, advances_step h hstart hn hs⟩)
    (workInv_of_reachable hstart hn hn' (Machine.Reachable.init _)) hr
  have hinit := left_initial p start n 0 hn
  exact le_trans (Nat.le_of_add_right_le hle) hinit

theorem steps_bounded_returningRun :
    ∃ s, (search forkProblem 1 2).run returningRun = some s ∧
      (search forkProblem 1 2).stepsFrom (fun s a => advances 2 s a = true) (initial 1)
        returningRun = 89 ∧
      (search forkProblem 1 2).stepsFrom (fun s a => advances 2 s a = true) (initial 1)
        returningRun ≤ 2 * ((2 + 54) * (forkProblem.numVertices + 1) + 1) + (2 * 2 + 42) := by
  have hs : ((search forkProblem 1 2).run returningRun).isSome = true := by decide +kernel
  obtain ⟨s, hr⟩ := Option.isSome_iff_exists.mp hs
  exact ⟨s, hr, by decide +kernel, steps_bounded (by decide) (by decide) (by decide) hr⟩

end MulticorePrac.MultiBfs
