import MulticorePrac.BufPool.Invariant

/-!
# The error path of `buf_pool_init`

The sequential function reports a failed instance and frees the earlier ones
(`sequential_error`).  The threaded one always comes to its last line
(`returns`), and returns `DB_SUCCESS` there: `pthread_create` signals an error
with a positive number, which the test `< 0` does not see, and the results of the
threads go to `(void**) ret` and are not looked at.
-/

namespace MulticorePrac.BufPool

/-- Nothing fails: every `pthread_create` and every `buf_chunk_init` that is called. -/
def NoFailure (c : Config) : Prop :=
  (∀ i < c.nInstances, c.pthreadCreate i = 0) ∧
    (c.size = 0 ∨ ∀ i < c.nInstances, c.bufChunkInit i c.size ≠ none)

instance (c : Config) : Decidable (NoFailure c) := inferInstanceAs (Decidable (_ ∧ _))

/-- In the run that ended in `s`, a thread creation or an instance failed. -/
def Failed (c : Config) (s : St) : Prop :=
  ∃ i < c.nInstances, c.pthreadCreate i ≠ 0 ∨ (s.thr i).pc = .done .DB_ERROR

/-- `buf_pool_init` returned `r` in `s`: it is `DB_ERROR` exactly after a failure, and then no
thread runs and what was initialised is freed. -/
structure ErrorPath (c : Config) (s : St) (r : DbErr) : Prop where
  reported : r = .DB_ERROR ↔ Failed c s
  stopped : r = .DB_ERROR → ∀ t < c.nInstances, ¬ Active (s.thr t)
  freed : r = .DB_ERROR → ∀ e ∈ s.inits, (s.pool e.2.bufPool).freed = true

theorem noFailure_iff (c : Config) :
    NoFailure c ↔ (∀ i < c.nInstances, c.pthreadCreate i = 0) ∧
      ∀ i < c.nInstances, ¬ Failing c i := by
  unfold NoFailure Failing
  constructor
  · rintro ⟨h1, h2⟩
    refine ⟨h1, fun i hi hf => ?_⟩
    rcases h2 with h2 | h2
    · omega
    · exact h2 i hi hf.2
  · rintro ⟨h1, h2⟩
    refine ⟨h1, ?_⟩
    by_cases hz : c.size = 0
    · exact Or.inl hz
    · exact Or.inr fun i hi hn => h2 i hi ⟨by omega, hn⟩

/-! ## The sequential function -/

theorem initInstance_error {c : Config} {i no locks : Nat} {p : Pool} :
    (initInstance c i p c.size no locks).1 = .DB_ERROR ↔ Failing c i := by
  unfold initInstance Failing
  by_cases hpos : 0 < c.size
  · rw [if_pos hpos]
    cases hch : c.bufChunkInit i c.size with
    | none => simp [hpos]
    | some chunk => simp
  · rw [if_neg hpos]
    simp [hpos]

/-- The loop fails when one of its instances does, and then every pool with its last fields set is
freed. -/
theorem seqLoop_error (c : Config) :
    ∀ (k i : Nat) (pool : Nat → Pool) (locks : Nat), (∀ j, i ≤ j → pool j = zeroed) →
      ((seqLoop c k i pool locks).1 = .DB_ERROR ↔ ∃ j, i ≤ j ∧ j < i + k ∧ Failing c j) ∧
      ((seqLoop c k i pool locks).1 = .DB_ERROR →
        ∀ j, ((seqLoop c k i pool locks).2 j).flush = true →
          ((seqLoop c k i pool locks).2 j).freed = true) := by
  intro k
  induction k with
  | zero =>
    intro i pool locks _
    refine ⟨⟨fun h => (by cases h), ?_⟩, fun h => (by cases h)⟩
    rintro ⟨j, h1, h2, _⟩
    omega
  | succ k ih =>
    intro i pool locks hz
    have herr : (initInstance c i (pool i) c.size i locks).1 = .DB_ERROR ↔ Failing c i :=
      initInstance_error
    unfold seqLoop
    rcases hres : initInstance c i (pool i) c.size i locks with ⟨r, p, locks'⟩
    rw [hres] at herr
    cases r with
    | DB_ERROR =>
      have hfail : Failing c i := herr.mp rfl
      refine ⟨⟨fun _ => ⟨i, Nat.le_refl _, by omega, hfail⟩, fun _ => rfl⟩, fun _ j hj => ?_⟩
      have hp : p = (pool i).fail := by
        unfold initInstance at hres
        rw [if_pos hfail.1, hfail.2] at hres
        exact (congrArg (fun x => x.2.1) hres).symm
      simp only [bufPoolFree] at hj ⊢
      by_cases hji : j < i
      · rw [if_pos hji]
      · rw [if_neg hji] at hj ⊢
        by_cases he : j = i
        · subst he
          rw [Function.update_self, hp] at hj ⊢
          rfl
        · rw [Function.update_of_ne he, hz j (by omega)] at hj
          cases hj
    | DB_SUCCESS =>
      have hok : ¬ Failing c i := fun hf => by cases herr.mpr hf
      have hz' : ∀ j, i + 1 ≤ j → Function.update pool i p j = zeroed := by
        intro j hj
        rw [Function.update_of_ne (by omega)]
        exact hz j (by omega)
      obtain ⟨h1, h2⟩ := ih (i + 1) _ locks' hz'
      refine ⟨?_, h2⟩
      show (seqLoop c k (i + 1) (Function.update pool i p) locks').1 = .DB_ERROR ↔ _
      rw [h1]
      constructor
      · rintro ⟨j, h3, h4, h5⟩
        exact ⟨j, by omega, by omega, h5⟩
      · rintro ⟨j, h3, h4, h5⟩
        by_cases he : j = i
        · subst he; exact absurd h5 hok
        · exact ⟨j, by omega, by omega, h5⟩

theorem sequential_error (c : Config) :
    ((sequential c).1 = .DB_ERROR ↔ ∃ i < c.nInstances, Failing c i) ∧
    ((sequential c).1 = .DB_ERROR →
      ∀ j, ((sequential c).2 j).flush = true → ((sequential c).2 j).freed = true) := by
  obtain ⟨h1, h2⟩ := seqLoop_error c c.nInstances 0 (fun _ => zeroed) c.nPageHashLocks
    (fun _ _ => rfl)
  refine ⟨?_, h2⟩
  show (seqLoop c c.nInstances 0 _ _).1 = .DB_ERROR ↔ _
  rw [h1]
  constructor
  · rintro ⟨j, _, h4, h5⟩
    exact ⟨j, by omega, h5⟩
  · rintro ⟨j, h4, h5⟩
    exact ⟨j, Nat.zero_le j, by omega, h5⟩

/-! ## The threaded function returns -/

/-- Steps that a thread has left, with its creation. -/
def ThreadPc.left : ThreadPc → Nat
  | .notCreated => 9
  | .readPool => 8
  | .readSize => 7
  | .readNo => 6
  | .chunk => 5
  | .readLocks => 4
  | .writeLocks => 3
  | .hash => 2
  | .flush => 1
  | .abort => 0
  | .done _ => 0

def MainPc.left (n : Nat) : MainPc → Nat
  | .setPool i => 4 * (n - i) + n + 2
  | .setSize i => 4 * (n - i) + n + 1
  | .setNo i => 4 * (n - i) + n
  | .create i => 4 * (n - i) + n - 1
  | .join i => n - i + 1
  | .setSizes => 1
  | .returned _ => 0

def left (c : Config) (s : St) : Nat :=
  s.mainPc.left c.nInstances + ∑ t ∈ Finset.range c.nInstances, (s.thr t).pc.left

section
variable {c : Config} {s s' : St} {t : Nat}

theorem loopFrom_left {i : Nat} (hi : i < c.nInstances) :
    (loopFrom c (i + 1)).left c.nInstances < (MainPc.create i).left c.nInstances := by
  unfold loopFrom
  split <;> simp only [MainPc.left] <;> omega

theorem joinFrom_left {i : Nat} (hi : i < c.nInstances) :
    (joinFrom c (i + 1)).left c.nInstances < (MainPc.join i).left c.nInstances := by
  unfold joinFrom
  split <;> simp only [MainPc.left] <;> omega

theorem Inv.created_lt (h : Inv c s) (ht : (s.thr t).pc ≠ .notCreated) : t < c.nInstances := by
  have hm := h.main
  unfold MainOk at hm
  cases hpc : s.mainPc with
  | setPool i => rw [hpc] at hm; have := ((hm.2 t).mp ht).1; omega
  | setSize i => rw [hpc] at hm; have := ((hm.2.1 t).mp ht).1; omega
  | setNo i => rw [hpc] at hm; have := ((hm.2.1 t).mp ht).1; omega
  | create i => rw [hpc] at hm; have := ((hm.2.1 t).mp ht).1; omega
  | join i => rw [hpc] at hm; exact ((hm.2.1 t).mp ht).1
  | setSizes => rw [hpc] at hm; exact ((hm.1 t).mp ht).1
  | returned r => rw [hpc] at hm; exact ((hm.2.1 t).mp ht).1

theorem left_main (h : Inv c s) (hs : mainStep c s = some s') : left c s' < left c s := by
  have hm := h.main
  unfold MainOk at hm
  unfold mainStep at hs
  unfold left
  cases hpc : s.mainPc with
  | setPool i => rw [hpc] at hs hm; cases hs; simp only [MainPc.left]; omega
  | setSize i => rw [hpc] at hs hm; cases hs; simp only [MainPc.left]; omega
  | setNo i => rw [hpc] at hs hm; cases hs; simp only [MainPc.left]; omega
  | create i =>
    rw [hpc] at hs hm
    obtain ⟨h1, h2, -⟩ := hm
    have hlt := loopFrom_left h1
    simp only [if_neg (Int.not_lt.mpr (c.create_nonneg i))] at hs
    by_cases hz : c.pthreadCreate i = 0
    · rw [if_pos hz] at hs
      cases hs
      have hnc : (s.thr i).pc = .notCreated := by
        apply Classical.byContradiction
        intro hne
        exact Nat.lt_irrefl i ((h2 i).mp hne).1
      have hsum := Machine.sum_update (fun l : Thread => l.pc.left) s.thr h1
        { s.thr i with pc := .readPool }
      have hle : (9 : Nat) = (s.thr i).pc.left := by rw [hnc]; rfl
      have hre : ThreadPc.readPool.left = 8 := rfl
      dsimp only at hsum
      show (loopFrom c (i + 1)).left c.nInstances +
        ∑ t ∈ Finset.range c.nInstances, (Function.update s.thr i _ t).pc.left < _
      omega
    · rw [if_neg hz] at hs
      cases hs
      exact Nat.add_lt_add_right hlt _
  | join i =>
    rw [hpc] at hs hm
    have hlt := joinFrom_left hm.1
    cases hti : (s.thr i).pc with
    | done r => simp only [hti] at hs; cases hs; exact Nat.add_lt_add_right hlt _
    | notCreated => simp only [hti] at hs; cases hs; exact Nat.add_lt_add_right hlt _
    | _ => simp only [hti] at hs; cases hs
  | setSizes => rw [hpc] at hs; cases hs; simp only [MainPc.left]; omega
  | returned r => rw [hpc] at hs; cases hs

theorem left_thread (h : Inv c s) (hs : threadStep c s t = some s') : left c s' < left c s := by
  have hlt : ∀ l : Thread, (s.thr t).pc ≠ .notCreated → l.pc.left < (s.thr t).pc.left →
      s'.mainPc = s.mainPc → s'.thr = Function.update s.thr t l → left c s' < left c s := by
    intro l hc hl hmain hthr
    have hsum := Machine.sum_update (fun l : Thread => l.pc.left) s.thr (h.created_lt hc) l
    unfold left
    rw [hmain, hthr]
    omega
  unfold threadStep at hs
  cases hpc : (s.thr t).pc with
  | notCreated => simp only [hpc] at hs; cases hs
  | chunk =>
    simp only [hpc] at hs
    split at hs
    · split at hs
      · cases hs
        exact hlt _ (by simp [hpc]) (by simp [hpc, ThreadPc.left]) rfl rfl
      · cases hs
        exact hlt _ (by simp [hpc]) (by simp [hpc, ThreadPc.left]) rfl rfl
    · cases hs
      exact hlt _ (by simp [hpc]) (by simp [hpc, ThreadPc.left]) rfl rfl
  | hash =>
    simp only [hpc] at hs
    split at hs
    · cases hs
      exact hlt _ (by simp [hpc]) (by simp [hpc, ThreadPc.left]) rfl rfl
    · cases hs
      exact hlt _ (by simp [hpc]) (by simp [hpc, ThreadPc.left]) rfl rfl
  | abort => simp only [hpc] at hs; cases hs
  | done r => simp only [hpc] at hs; cases hs
  | _ =>
    simp only [hpc] at hs
    cases hs
    exact hlt _ (by simp [hpc]) (by simp [hpc, ThreadPc.left]) rfl rfl

/-- A thread that has not finished can take a step. -/
theorem thread_moves (h : Inv c s) (ha : Active (s.thr t)) : ∃ s', threadStep c s t = some s' := by
  have hok := h.threads t
  unfold ThreadOk at hok
  unfold threadStep
  cases hpc : (s.thr t).pc with
  | notCreated => exact absurd hpc ha.1
  | done r => exact absurd hpc (ha.2 r)
  | abort => rw [hpc] at hok; exact hok.elim
  | chunk =>
    simp only [hpc]
    split
    · split <;> exact ⟨_, rfl⟩
    · exact ⟨_, rfl⟩
  | hash =>
    simp only [hpc]
    split <;> exact ⟨_, rfl⟩
  | _ => simp only [hpc]; exact ⟨_, rfl⟩

theorem main_or_thread_moves (h : Inv c s) (hret : ¬ ∃ r, s.mainPc = .returned r) :
    ∃ a s', step c s a = some s' := by
  cases hpc : s.mainPc with
  | join i =>
    by_cases hj : Joined (s.thr i)
    · refine ⟨.main, ?_⟩
      show ∃ s', mainStep c s = some s'
      unfold mainStep
      rw [hpc]
      rcases hj with hj | ⟨r, hj⟩ <;> simp only [hj] <;> exact ⟨_, rfl⟩
    · refine ⟨.thread i, thread_moves h ⟨fun hn => hj (Or.inl hn), fun r hr => hj (Or.inr ⟨r, hr⟩)⟩⟩
  | create i =>
    refine ⟨.main, ?_⟩
    show ∃ s', mainStep c s = some s'
    unfold mainStep
    rw [hpc]
    simp only
    split
    · exact ⟨_, rfl⟩
    · split <;> exact ⟨_, rfl⟩
  | returned r => exact absurd ⟨r, hpc⟩ hret
  | _ =>
    refine ⟨.main, ?_⟩
    show ∃ s', mainStep c s = some s'
    unfold mainStep
    rw [hpc]
    exact ⟨_, rfl⟩

/-- Every run can be continued until `buf_pool_init` returns. -/
theorem returns {junk : Param} (hs : (bufPoolInit c junk).Reachable s) :
    ∃ as s', (bufPoolInit c junk).runFrom s as = some s' ∧ ∃ r, s'.mainPc = .returned r := by
  obtain ⟨as, hr⟩ := hs
  refine (bufPoolInit c junk).reaches_of_measure (Inv c) _ (left c) ?_ ?_ s (inv_run hr)
  · intro s a s' hi hs
    refine ⟨inv_step hi hs, ?_⟩
    cases a with
    | main => exact left_main hi hs
    | thread t => exact left_thread hi hs
  · intro s hi hf
    exact main_or_thread_moves hi hf

/-- When it returns, an instance has failed unless nothing can fail. -/
theorem failed_iff (h : Inv c s) {r : DbErr} (hret : s.mainPc = .returned r) :
    Failed c s ↔ ¬ NoFailure c := by
  have hm := h.main
  unfold MainOk at hm
  rw [hret] at hm
  obtain ⟨-, hmade, hjoin⟩ := hm
  rw [noFailure_iff]
  constructor
  · rintro ⟨i, hi, hf⟩ ⟨h1, h2⟩
    rcases hf with hf | hf
    · exact hf (h1 i hi)
    · have hok := h.threads i
      unfold ThreadOk at hok
      rw [hf] at hok
      exact h2 i hi hok.2
  · intro hno
    apply Classical.byContradiction
    intro hnf
    have hcr : ∀ i < c.nInstances, c.pthreadCreate i = 0 := by
      intro i hi
      apply Classical.byContradiction
      intro hne
      exact hnf ⟨i, hi, Or.inl hne⟩
    refine hno ⟨hcr, fun i hi hf => ?_⟩
    have hok := h.threads i
    unfold ThreadOk at hok
    rcases hjoin i hi with hj | ⟨r', hj⟩
    · exact (hmade i).mpr ⟨hi, hcr i hi⟩ hj
    · cases r' with
      | DB_SUCCESS => rw [hj] at hok; exact hok.2 hf
      | DB_ERROR => exact hnf ⟨i, hi, Or.inr hj⟩

/-- **The error path.**  The threaded `buf_pool_init` returns, and what it returns is right only
when nothing fails. -/
theorem error_path_iff (c : Config) (junk : Param) :
    (∀ s, (bufPoolInit c junk).Reachable s → ∃ as s',
      (bufPoolInit c junk).runFrom s as = some s' ∧ ∃ r, s'.mainPc = .returned r) ∧
    ∀ as s r, (bufPoolInit c junk).run as = some s → s.mainPc = .returned r →
      (ErrorPath c s r ↔ NoFailure c) := by
  refine ⟨fun s hs => returns hs, fun as s r hr hret => ?_⟩
  have h := inv_run hr
  have hf := failed_iff h hret
  have hm := h.main
  unfold MainOk at hm
  rw [hret] at hm
  have hsucc : r = .DB_SUCCESS := hm.1
  subst hsucc
  constructor
  · intro he
    apply Classical.byContradiction
    intro hno
    cases he.reported.mpr (hf.mpr hno)
  · intro hno
    exact ⟨⟨fun h => (by cases h), fun h => absurd hno (hf.mp h)⟩, fun h => (by cases h),
      fun h => (by cases h)⟩

theorem create_succeeds (i : Nat) : 0 ≤ (fun _ : Nat => (0 : Int)) i := Int.le_refl 0

/-- One instance of 16384 bytes whose chunk cannot be allocated. -/
def failingConfig : Config where
  totalSize := 16384
  nInstances := 1
  pageSize := 16384
  nPageHashLocks := 16
  nTmpSlots := 4
  bufChunkInit _ _ := none
  pthreadCreate _ := 0
  instances_pos := by decide
  locks_pos := by decide
  locks_le := by decide
  create_nonneg := create_succeeds

/-- The loop, the thread to its end, the join. -/
def failingRun : List Act :=
  List.replicate 4 .main ++ List.replicate 4 (.thread 0) ++ List.replicate 2 .main

theorem failing_instance_not_reported :
    ∃ s, (bufPoolInit failingConfig ⟨0, 0, 0⟩).run failingRun = some s ∧
      s.mainPc = .returned .DB_SUCCESS ∧ (s.thr 0).pc = .done .DB_ERROR ∧
      ¬ ErrorPath failingConfig s .DB_SUCCESS := by
  have hs : (((bufPoolInit failingConfig ⟨0, 0, 0⟩).run failingRun).any fun s =>
      decide (s.mainPc = .returned .DB_SUCCESS ∧ (s.thr 0).pc = .done .DB_ERROR)) = true := by
    decide
  obtain ⟨s, hr, h0⟩ := (Option.any_eq_true _ _).mp hs
  obtain ⟨h1, h2⟩ := of_decide_eq_true h0
  refine ⟨s, hr, h1, h2, fun he => ?_⟩
  cases he.reported.mpr ⟨0, by decide, Or.inr h2⟩

end

end MulticorePrac.BufPool
