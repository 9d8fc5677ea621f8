import MulticorePrac.BufPool.Model

/-!
# What every run of the threaded `buf_pool_init` keeps

Whatever the interleaving, thread `t` is created after the loop has written `t`
to `param.buf_pool` and `param.instance_no`, and later writes are larger.  So the
values thread `t` copies are at least `t` (`Copied`), and the size it copies is
the right one, since the loop always writes the same.
-/

namespace MulticorePrac.BufPool

/-! ## `ut_2_power_up` -/

theorem powerUpFrom_ge (n : Nat) :
    ∀ (fuel res : Nat), n ≤ res * 2 ^ fuel → n ≤ powerUpFrom n fuel res := by
  intro fuel
  induction fuel with
  | zero => intro res h; simpa [powerUpFrom] using h
  | succ fuel ih =>
    intro res h
    unfold powerUpFrom
    by_cases hr : res < n
    · rw [if_pos hr]
      apply ih
      rwa [Nat.mul_assoc, ← Nat.pow_succ']
    · rw [if_neg hr]
      omega

/-- The result is a power of two, and no larger than any power of two from the start on that is
at least `n`. -/
theorem powerUpFrom_pow (n : Nat) :
    ∀ (fuel k : Nat), ∃ m, powerUpFrom n fuel (2 ^ k) = 2 ^ m ∧ ∀ j, k ≤ j → n ≤ 2 ^ j → m ≤ j := by
  intro fuel
  induction fuel with
  | zero => intro k; exact ⟨k, rfl, fun j hj _ => hj⟩
  | succ fuel ih =>
    intro k
    unfold powerUpFrom
    by_cases hr : 2 ^ k < n
    · rw [if_pos hr, ← Nat.pow_succ]
      obtain ⟨m, hm, hle⟩ := ih (k + 1)
      refine ⟨m, hm, fun j hj hn => hle j ?_ hn⟩
      rcases Nat.lt_or_eq_of_le hj with h | rfl
      · exact h
      · omega
    · rw [if_neg hr]
      exact ⟨k, rfl, fun j hj _ => hj⟩

theorem ut2PowerUp_ge (n : Nat) : n ≤ ut2PowerUp n := by
  apply powerUpFrom_ge
  have := Nat.lt_two_pow_self (n := n)
  omega

theorem ut2PowerUp_pow (n : Nat) :
    ∃ m, ut2PowerUp n = 2 ^ m ∧ ∀ j, n ≤ 2 ^ j → m ≤ j := by
  obtain ⟨m, hm, hle⟩ := powerUpFrom_pow n n 0
  exact ⟨m, hm, fun j hj => hle j (Nat.zero_le j) hj⟩

theorem ut2PowerUp_idem (n : Nat) : ut2PowerUp (ut2PowerUp n) = ut2PowerUp n := by
  obtain ⟨m, hm, -⟩ := ut2PowerUp_pow n
  obtain ⟨k, hk, hle⟩ := ut2PowerUp_pow (ut2PowerUp n)
  have h1 := ut2PowerUp_ge (ut2PowerUp n)
  have h2 : k ≤ m := hle m (Nat.le_of_eq hm)
  have h3 : 2 ^ k ≤ 2 ^ m := Nat.pow_le_pow_right (by decide) h2
  rw [hk, hm] at h1 ⊢
  omega

theorem ut2PowerUp_le_max {n : Nat} (h : n ≤ MAX_PAGE_HASH_LOCKS) :
    ut2PowerUp n ≤ MAX_PAGE_HASH_LOCKS := by
  obtain ⟨m, hm, hle⟩ := ut2PowerUp_pow n
  rw [hm]
  exact Nat.pow_le_pow_right (by decide) (hle 10 h)

/-! ## The invariant -/

/-- `buf_chunk_init` is called for instance `t` and fails. -/
def Failing (c : Config) (t : Nat) : Prop := 0 < c.size ∧ c.bufChunkInit t c.size = none

/-- The parameters that thread `t` has copied. -/
def Copied (c : Config) (t : Nat) (l : Thread) : Prop :=
  t ≤ l.param.bufPool ∧ l.param.bufPoolSize = c.size ∧ t ≤ l.param.instanceNo

def ThreadOk (c : Config) (p : Param) (t : Nat) (l : Thread) : Prop :=
  match l.pc with
  | .notCreated => True
  | .readPool => t ≤ p.bufPool ∧ t ≤ p.instanceNo
  | .readSize => t ≤ l.param.bufPool ∧ t ≤ p.instanceNo
  | .readNo => t ≤ l.param.bufPool ∧ l.param.bufPoolSize = c.size ∧ t ≤ p.instanceNo
  | .chunk => Copied c t l
  | .readLocks => Copied c t l ∧ ¬ Failing c t ∧ 0 < c.size
  | .writeLocks => Copied c t l ∧ (¬ Failing c t ∧ 0 < c.size) ∧
      l.locks = ut2PowerUp c.nPageHashLocks
  | .hash => Copied c t l ∧ ¬ Failing c t ∧ 0 < c.size
  | .flush => Copied c t l ∧ ¬ Failing c t
  | .abort => False
  | .done .DB_SUCCESS => Copied c t l ∧ ¬ Failing c t
  | .done .DB_ERROR => Copied c t l ∧ Failing c t

/-- The creating loop has passed `i` calls of `pthread_create`. -/
def Made (c : Config) (s : St) (i : Nat) : Prop :=
  ∀ t, (s.thr t).pc ≠ .notCreated ↔ t < i ∧ c.pthreadCreate t = 0

/-- Never started or finished. -/
def Joined (l : Thread) : Prop := l.pc = .notCreated ∨ ∃ r, l.pc = .done r

def MainOk (c : Config) (s : St) : Prop :=
  match s.mainPc with
  | .setPool i => i < c.nInstances ∧ Made c s i
  | .setSize i => i < c.nInstances ∧ Made c s i ∧ s.param.bufPool = i
  | .setNo i => i < c.nInstances ∧ Made c s i ∧ s.param.bufPool = i ∧ s.param.bufPoolSize = c.size
  | .create i => i < c.nInstances ∧ Made c s i ∧ s.param = ⟨i, c.size, i⟩
  | .join i => i < c.nInstances ∧ Made c s c.nInstances ∧ ∀ t < i, Joined (s.thr t)
  | .setSizes => Made c s c.nInstances ∧ ∀ t < c.nInstances, Joined (s.thr t)
  | .returned r => r = .DB_SUCCESS ∧ Made c s c.nInstances ∧ ∀ t < c.nInstances, Joined (s.thr t)

structure Inv (c : Config) (s : St) : Prop where
  main : MainOk c s
  threads : ∀ t, ThreadOk c s.param t (s.thr t)
  size : ∀ t, (s.thr t).pc ≠ .notCreated → s.param.bufPoolSize = c.size
  locks : s.nPageHashLocks = c.nPageHashLocks ∨ s.nPageHashLocks = ut2PowerUp c.nPageHashLocks
  initsDone : ∀ e ∈ s.inits, (s.thr e.1).pc = .done .DB_SUCCESS ∧ e.2 = (s.thr e.1).param
  initsOnce : (s.inits.map Prod.fst).Nodup
  initsAll : ∀ t, (s.thr t).pc = .done .DB_SUCCESS → (t, (s.thr t).param) ∈ s.inits

section
variable {c : Config} {s s' : St} {t : Nat}

theorem Inv.locks_up (h : Inv c s) : ut2PowerUp s.nPageHashLocks = ut2PowerUp c.nPageHashLocks := by
  rcases h.locks with h | h
  · rw [h]
  · rw [h, ut2PowerUp_idem]

/-- The two assertions on `srv_n_page_hash_locks` hold. -/
theorem Inv.locks_ok (h : Inv c s) :
    s.nPageHashLocks ≠ 0 ∧ s.nPageHashLocks ≤ MAX_PAGE_HASH_LOCKS := by
  have h1 := c.locks_pos
  have h2 := c.locks_le
  have h3 := ut2PowerUp_ge c.nPageHashLocks
  have h4 := ut2PowerUp_le_max c.locks_le
  rcases h.locks with h | h <;> rw [h] <;> omega

/-! ## Steps of the loop -/

/-- What the loop writes to `param` is above the index of every created thread. -/
theorem ThreadOk.write {p p' : Param} {l : Thread} (h : ThreadOk c p t l)
    (h1 : l.pc ≠ .notCreated → t ≤ p.bufPool → t ≤ p'.bufPool)
    (h2 : l.pc ≠ .notCreated → t ≤ p.instanceNo → t ≤ p'.instanceNo) : ThreadOk c p' t l := by
  unfold ThreadOk at h ⊢
  cases hpc : l.pc with
  | readPool =>
    rw [hpc] at h
    exact ⟨h1 (by simp [hpc]) h.1, h2 (by simp [hpc]) h.2⟩
  | readSize =>
    rw [hpc] at h
    exact ⟨h.1, h2 (by simp [hpc]) h.2⟩
  | readNo =>
    rw [hpc] at h
    exact ⟨h.1, h.2.1, h2 (by simp [hpc]) h.2.2⟩
  | done r => rw [hpc] at h; cases r <;> exact h
  | _ => rw [hpc] at h; exact h

theorem mainOk_joinFrom {i : Nat} (hs : s'.mainPc = joinFrom c i) (hm : Made c s' c.nInstances)
    (hj : ∀ t < i, Joined (s'.thr t)) : MainOk c s' := by
  unfold MainOk
  rw [hs]
  unfold joinFrom
  by_cases hi : i < c.nInstances
  · rw [if_pos hi]
    exact ⟨hi, hm, hj⟩
  · rw [if_neg hi]
    exact ⟨hm, fun t ht => hj t (by omega)⟩

theorem mainOk_loopFrom {i : Nat} (hs : s'.mainPc = loopFrom c i) (hi : i ≤ c.nInstances)
    (hm : Made c s' i) : MainOk c s' := by
  unfold MainOk
  rw [hs]
  unfold loopFrom
  by_cases h : i < c.nInstances
  · rw [if_pos h]
    exact ⟨h, hm⟩
  · rw [if_neg h]
    have hin : i = c.nInstances := by omega
    rw [← hin]
    exact ⟨by have := c.instances_pos; omega, hm, fun t ht => absurd ht (Nat.not_lt_zero t)⟩

theorem inv_main (h : Inv c s) (hs : mainStep c s = some s') : Inv c s' := by
  have hm := h.main
  unfold MainOk at hm
  unfold mainStep at hs
  cases hpc : s.mainPc with
  | setPool i =>
    rw [hpc] at hs hm
    cases hs
    refine ⟨⟨hm.1, hm.2, rfl⟩, fun t => ?_, h.size, h.locks, h.initsDone, h.initsOnce, h.initsAll⟩
    refine (h.threads t).write (fun hc _ => ?_) (fun _ h => h)
    exact Nat.le_of_lt ((hm.2 t).mp hc).1
  | setSize i =>
    rw [hpc] at hs hm
    cases hs
    exact ⟨⟨hm.1, hm.2.1, hm.2.2, rfl⟩, fun t => (h.threads t).write (fun _ h => h) (fun _ h => h),
      fun _ _ => rfl, h.locks, h.initsDone, h.initsOnce, h.initsAll⟩
  | setNo i =>
    rw [hpc] at hs hm
    cases hs
    obtain ⟨h1, h2, h3, h4⟩ := hm
    refine ⟨⟨h1, h2, ?_⟩, fun t => ?_, h.size, h.locks, h.initsDone, h.initsOnce, h.initsAll⟩
    · simp [h3, h4]
    · refine (h.threads t).write (fun _ h => h) (fun hc _ => ?_)
      exact Nat.le_of_lt ((h2 t).mp hc).1
  | create i =>
    rw [hpc] at hs hm
    obtain ⟨h1, h2, h3⟩ := hm
    have hnc : (s.thr i).pc = .notCreated := by
      apply Classical.byContradiction
      intro hne
      exact Nat.lt_irrefl i ((h2 i).mp hne).1
    have hneg := c.create_nonneg i
    simp only [if_neg (Int.not_lt.mpr hneg)] at hs
    by_cases hz : c.pthreadCreate i = 0
    · rw [if_pos hz] at hs
      cases hs
      have hother : ∀ u, u ≠ i → Function.update s.thr i { s.thr i with pc := .readPool } u = s.thr u :=
        fun u hu => Function.update_of_ne hu _ _
      refine ⟨mainOk_loopFrom rfl h1 (fun t => ?_), fun t => ?_, fun t ht => ?_, h.locks,
        fun e he => ?_, h.initsOnce, fun t ht => ?_⟩
      · show (Function.update s.thr i _ t).pc ≠ _ ↔ _
        by_cases hti : t = i
        · subst hti
          rw [Function.update_self]
          simp [hz]
        · rw [hother t hti, h2 t]
          constructor
          · rintro ⟨h5, h6⟩; exact ⟨by omega, h6⟩
          · rintro ⟨h5, h6⟩; exact ⟨by omega, h6⟩
      · show ThreadOk c s.param t (Function.update s.thr i _ t)
        by_cases hti : t = i
        · subst hti
          rw [Function.update_self]
          show t ≤ s.param.bufPool ∧ t ≤ s.param.instanceNo
          rw [h3]
          simp
        · rw [hother t hti]
          exact h.threads t
      · show s.param.bufPoolSize = c.size
        rw [h3]
      · show (Function.update s.thr i _ e.1).pc = _ ∧ e.2 = (Function.update s.thr i _ e.1).param
        have hei : e.1 ≠ i := by
          intro he'
          have := (h.initsDone e he).1
          rw [he', hnc] at this
          cases this
        rw [hother _ hei]
        exact h.initsDone e he
      · have hti : t ≠ i := by
          rintro rfl
          simp at ht
        simp only [Function.update_of_ne hti] at ht ⊢
        exact h.initsAll t ht
    · rw [if_neg hz] at hs
      cases hs
      refine ⟨mainOk_loopFrom rfl h1 (fun t => ?_), h.threads, h.size, h.locks, h.initsDone,
        h.initsOnce, h.initsAll⟩
      show (s.thr t).pc ≠ _ ↔ _
      rw [h2 t]
      constructor
      · rintro ⟨h5, h6⟩; exact ⟨by omega, h6⟩
      · rintro ⟨h5, h6⟩
        refine ⟨?_, h6⟩
        by_cases hti : t = i
        · subst hti; exact absurd h6 hz
        · omega
  | join i =>
    rw [hpc] at hs hm
    obtain ⟨h1, h2, h3⟩ := hm
    have hj : Joined (s.thr i) → some { s with mainPc := joinFrom c (i + 1) } = some s' → Inv c s' := by
      intro hji hs
      cases hs
      refine ⟨mainOk_joinFrom rfl h2 (fun t ht => ?_), h.threads, h.size, h.locks, h.initsDone,
        h.initsOnce, h.initsAll⟩
      by_cases hti : t = i
      · subst hti; exact hji
      · exact h3 t (by omega)
    cases hti : (s.thr i).pc with
    | done r => simp only [hti] at hs; exact hj (Or.inr ⟨r, hti⟩) hs
    | notCreated => simp only [hti] at hs; exact hj (Or.inl hti) hs
    | _ => simp only [hti] at hs; cases hs
  | setSizes =>
    rw [hpc] at hs hm
    cases hs
    exact ⟨⟨rfl, hm⟩, h.threads, h.size, h.locks, h.initsDone, h.initsOnce, h.initsAll⟩
  | returned r => rw [hpc] at hs; cases hs

/-! ## Steps of a thread -/

/-- Created and not finished. -/
def Active (l : Thread) : Prop := l.pc ≠ .notCreated ∧ ∀ r, l.pc ≠ .done r

/-- `s'` differs from `s` in what thread `t` may change. -/
structure Moved (s s' : St) (t : Nat) (l : Thread) : Prop where
  main : s'.mainPc = s.mainPc
  param : s'.param = s.param
  thr : s'.thr = Function.update s.thr t l

theorem Moved.self {l : Thread} (hm : Moved s s' t l) : s'.thr t = l := by
  rw [hm.thr, Function.update_self]

theorem Moved.other {l : Thread} (hm : Moved s s' t l) {u : Nat} (hu : u ≠ t) :
    s'.thr u = s.thr u := by
  rw [hm.thr, Function.update_of_ne hu]

theorem Moved.made {l : Thread} (hm : Moved s s' t l) (ha : Active (s.thr t))
    (hl : l.pc ≠ .notCreated) {i : Nat} (h : Made c s i) : Made c s' i := by
  intro u
  by_cases hu : u = t
  · subst hu
    rw [hm.self, ← h u]
    exact ⟨fun _ => ha.1, fun _ => hl⟩
  · rw [hm.other hu]
    exact h u

theorem Moved.joined {l : Thread} (hm : Moved s s' t l) (ha : Active (s.thr t)) {i : Nat}
    (h : ∀ u < i, Joined (s.thr u)) : ∀ u < i, Joined (s'.thr u) := by
  intro u hu
  have hut : u ≠ t := by
    rintro rfl
    rcases h u hu with h | ⟨r, h⟩
    · exact ha.1 h
    · exact ha.2 r h
  rw [hm.other hut]
  exact h u hu

theorem Inv.moveThread (h : Inv c s) {l : Thread} (hm : Moved s s' t l) (ha : Active (s.thr t))
    (hl : l.pc ≠ .notCreated) (hok : ThreadOk c s.param t l)
    (hlocks : s'.nPageHashLocks = s.nPageHashLocks ∨
      s'.nPageHashLocks = ut2PowerUp c.nPageHashLocks)
    (hinits : (l.pc ≠ .done .DB_SUCCESS ∧ s'.inits = s.inits) ∨
      (l.pc = .done .DB_SUCCESS ∧ s'.inits = (t, l.param) :: s.inits)) : Inv c s' := by
  have hnot : ∀ e ∈ s.inits, e.1 ≠ t := by
    intro e he het
    exact ha.2 _ (by rw [← het]; exact (h.initsDone e he).1)
  have hold : ∀ e ∈ s.inits, (s'.thr e.1).pc = .done .DB_SUCCESS ∧ e.2 = (s'.thr e.1).param := by
    intro e he
    rw [hm.other (hnot e he)]
    exact h.initsDone e he
  refine ⟨?_, fun u => ?_, fun u hu => ?_, ?_, ?_, ?_, ?_⟩
  · have hmain := h.main
    unfold MainOk at hmain ⊢
    rw [hm.main, hm.param]
    cases hpc : s.mainPc with
    | setPool i => rw [hpc] at hmain; exact ⟨hmain.1, hm.made ha hl hmain.2⟩
    | setSize i => rw [hpc] at hmain; exact ⟨hmain.1, hm.made ha hl hmain.2.1, hmain.2.2⟩
    | setNo i => rw [hpc] at hmain; exact ⟨hmain.1, hm.made ha hl hmain.2.1, hmain.2.2⟩
    | create i => rw [hpc] at hmain; exact ⟨hmain.1, hm.made ha hl hmain.2.1, hmain.2.2⟩
    | join i =>
      rw [hpc] at hmain
      exact ⟨hmain.1, hm.made ha hl hmain.2.1, hm.joined ha hmain.2.2⟩
    | setSizes => rw [hpc] at hmain; exact ⟨hm.made ha hl hmain.1, hm.joined ha hmain.2⟩
    | returned r =>
      rw [hpc] at hmain
      exact ⟨hmain.1, hm.made ha hl hmain.2.1, hm.joined ha hmain.2.2⟩
  · rw [hm.param]
    by_cases hu : u = t
    · subst hu; rw [hm.self]; exact hok
    · rw [hm.other hu]; exact h.threads u
  · rw [hm.param]
    by_cases hut : u = t
    · subst hut; exact h.size u ha.1
    · rw [hm.other hut] at hu; exact h.size u hu
  · rcases hlocks with hl | hl
    · rw [hl]; exact h.locks
    · exact Or.inr hl
  · rcases hinits with ⟨_, hi⟩ | ⟨hpc, hi⟩
    · rw [hi]; exact hold
    · rw [hi]
      intro e he
      rcases List.mem_cons.mp he with rfl | he
      · rw [hm.self]; exact ⟨hpc, rfl⟩
      · exact hold e he
  · rcases hinits with ⟨_, hi⟩ | ⟨_, hi⟩
    · rw [hi]; exact h.initsOnce
    · rw [hi, List.map_cons, List.nodup_cons]
      refine ⟨fun hmem => ?_, h.initsOnce⟩
      obtain ⟨e, he, het⟩ := List.mem_map.mp hmem
      exact hnot e he het
  · intro u hu
    rcases hinits with ⟨hpc, hi⟩ | ⟨_, hi⟩
    · have hut : u ≠ t := by
        rintro rfl
        rw [hm.self] at hu
        exact hpc hu
      rw [hi, hm.other hut]
      rw [hm.other hut] at hu
      exact h.initsAll u hu
    · rw [hi]
      by_cases hut : u = t
      · subst hut
        rw [hm.self]
        exact List.mem_cons_self
      · rw [hm.other hut] at hu ⊢
        exact List.mem_cons_of_mem _ (h.initsAll u hu)

theorem active_of_pc {l : Thread} {pc : ThreadPc} (h : l.pc = pc) (h1 : pc ≠ .notCreated)
    (h2 : ∀ r, pc ≠ .done r) : Active l := by
  subst h
  exact ⟨h1, h2⟩

theorem inv_threadStep (h : Inv c s) (hs : threadStep c s t = some s') : Inv c s' := by
  have hok := h.threads t
  unfold ThreadOk at hok
  unfold threadStep at hs
  cases hpc : (s.thr t).pc with
  | notCreated => simp only [hpc] at hs; cases hs
  | readPool =>
    simp only [hpc] at hs hok
    cases hs
    exact h.moveThread ⟨rfl, rfl, rfl⟩ (active_of_pc hpc (by simp) (by simp)) (by simp) hok
      (Or.inl rfl) (Or.inl ⟨by simp, rfl⟩)
  | readSize =>
    simp only [hpc] at hs hok
    cases hs
    exact h.moveThread ⟨rfl, rfl, rfl⟩ (active_of_pc hpc (by simp) (by simp)) (by simp)
      ⟨hok.1, h.size t (by simp [hpc]), hok.2⟩ (Or.inl rfl) (Or.inl ⟨by simp, rfl⟩)
  | readNo =>
    simp only [hpc] at hs hok
    cases hs
    exact h.moveThread ⟨rfl, rfl, rfl⟩ (active_of_pc hpc (by simp) (by simp)) (by simp)
      hok (Or.inl rfl) (Or.inl ⟨by simp, rfl⟩)
  | chunk =>
    simp only [hpc] at hs hok
    have hsize : (s.thr t).param.bufPoolSize = c.size := hok.2.1
    rw [hsize] at hs
    have hact : Active (s.thr t) := active_of_pc hpc (by simp) (by simp)
    by_cases hpos : 0 < c.size
    · rw [if_pos hpos] at hs
      cases hch : c.bufChunkInit t c.size with
      | none =>
        simp only [hch] at hs
        cases hs
        exact h.moveThread ⟨rfl, rfl, rfl⟩ hact (by simp) ⟨hok, hpos, hch⟩ (Or.inl rfl)
          (Or.inl ⟨by simp, rfl⟩)
      | some chunk =>
        simp only [hch] at hs
        cases hs
        refine h.moveThread ⟨rfl, rfl, rfl⟩ hact (by simp) ⟨hok, fun hf => ?_, hpos⟩ (Or.inl rfl)
          (Or.inl ⟨by simp, rfl⟩)
        rw [hf.2] at hch
        cases hch
    · rw [if_neg hpos] at hs
      cases hs
      exact h.moveThread ⟨rfl, rfl, rfl⟩ hact (by simp) ⟨hok, fun hf => hpos hf.1⟩ (Or.inl rfl)
        (Or.inl ⟨by simp, rfl⟩)
  | readLocks =>
    simp only [hpc] at hs hok
    cases hs
    exact h.moveThread ⟨rfl, rfl, rfl⟩ (active_of_pc hpc (by simp) (by simp)) (by simp)
      ⟨hok.1, hok.2, h.locks_up⟩ (Or.inl rfl) (Or.inl ⟨by simp, rfl⟩)
  | writeLocks =>
    simp only [hpc] at hs hok
    cases hs
    exact h.moveThread ⟨rfl, rfl, rfl⟩ (active_of_pc hpc (by simp) (by simp)) (by simp)
      ⟨hok.1, hok.2.1⟩ (Or.inr hok.2.2) (Or.inl ⟨by simp, rfl⟩)
  | hash =>
    simp only [hpc, if_pos h.locks_ok] at hs hok
    cases hs
    exact h.moveThread ⟨rfl, rfl, rfl⟩ (active_of_pc hpc (by simp) (by simp)) (by simp)
      ⟨hok.1, hok.2.1⟩ (Or.inl rfl) (Or.inl ⟨by simp, rfl⟩)
  | flush =>
    simp only [hpc] at hs hok
    cases hs
    exact h.moveThread ⟨rfl, rfl, rfl⟩ (active_of_pc hpc (by simp) (by simp)) (by simp)
      hok (Or.inl rfl) (Or.inr ⟨rfl, rfl⟩)
  | abort => simp only [hpc] at hs; cases hs
  | done r => simp only [hpc] at hs; cases hs

theorem inv_step {a : Act} (h : Inv c s) (hs : step c s a = some s') : Inv c s' := by
  cases a with
  | main => exact inv_main h hs
  | thread t => exact inv_threadStep h hs

theorem inv_initial (c : Config) (junk : Param) : Inv c (initial c junk) := by
  refine ⟨mainOk_loopFrom rfl (Nat.zero_le _) (fun t => ?_), fun t => trivial, fun t ht => ?_,
    Or.inl rfl, fun e he => ?_, List.nodup_nil, fun t ht => ?_⟩
  · simp [initial]
  · simp [initial] at ht
  · simp [initial] at he
  · simp [initial] at ht

theorem inv_run {junk : Param} {as : List Act} (hr : (bufPoolInit c junk).run as = some s) :
    Inv c s :=
  (bufPoolInit c junk).invariant (Inv c) (inv_initial c junk)
    (fun _ _ _ hi hs => inv_step hi hs) ⟨as, hr⟩

end

end MulticorePrac.BufPool
