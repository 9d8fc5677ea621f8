import MulticorePrac.BufPool.Error

/-!
# The threaded `buf_pool_init` against the sequential one

Thread `t` is crooked when it has copied, or is about to copy, a parameter above
its own: only a write of the loop before the thread's read makes it so, and it
stays so.  Without crooked threads, each thread works on its own pool and builds
what the sequential function builds.  With one, some pool is not initialised with
its own parameters: every thread copies an index at or above its own, so the
pools can only be hit once each when thread `i` hits pool `i`, for each `i` in turn.
-/

namespace MulticorePrac.BufPool

/-- All threads are joined. -/
def AfterJoins (s : St) : Prop := s.mainPc = .setSizes ∨ ∃ r, s.mainPc = .returned r

/-- Each pool initialised exactly once, by a thread with its own parameters, and equal to the
pool of the sequential `buf_pool_init`. -/
def Agrees (c : Config) (s : St) : Prop :=
  ∀ i < c.nInstances,
    (∃ t, s.inits.filter (fun e => e.2.bufPool = i) = [(t, ⟨i, c.size, i⟩)]) ∧
      s.pool i = (sequential c).2 i

/-- The loop rewrites a field of `param` only when every thread made so far has read it. -/
def Ordered (c : Config) (s : St) (a : Act) : Prop :=
  a = .main →
    match s.mainPc with
    | .setPool _ => ∀ t < c.nInstances, (s.thr t).pc ≠ .readPool
    | .setNo _ => ∀ t < c.nInstances,
        (s.thr t).pc ≠ .readPool ∧ (s.thr t).pc ≠ .readSize ∧ (s.thr t).pc ≠ .readNo
    | _ => True

instance (c : Config) (s : St) (a : Act) : Decidable (Ordered c s a) := by
  unfold Ordered
  have : Decidable (match s.mainPc with
    | .setPool _ => ∀ t < c.nInstances, (s.thr t).pc ≠ .readPool
    | .setNo _ => ∀ t < c.nInstances,
        (s.thr t).pc ≠ .readPool ∧ (s.thr t).pc ≠ .readSize ∧ (s.thr t).pc ≠ .readNo
    | _ => True) := by
    split <;> infer_instance
  infer_instance

/-- The index and the number that thread `t` has, or will have if it reads now. -/
def slotOf (s : St) (t : Nat) : Nat :=
  match (s.thr t).pc with
  | .readPool => s.param.bufPool
  | _ => (s.thr t).param.bufPool

def noOf (s : St) (t : Nat) : Nat :=
  match (s.thr t).pc with
  | .readPool => s.param.instanceNo
  | .readSize => s.param.instanceNo
  | .readNo => s.param.instanceNo
  | _ => (s.thr t).param.instanceNo

def Crooked (s : St) (t : Nat) : Prop :=
  (s.thr t).pc ≠ .notCreated ∧ (t < slotOf s t ∨ t < noOf s t)

section
variable {c : Config} {s s' : St} {t : Nat}

theorem Inv.slot_ge (h : Inv c s) (hc : (s.thr t).pc ≠ .notCreated) :
    t ≤ slotOf s t ∧ t ≤ noOf s t := by
  have hok := h.threads t
  unfold ThreadOk at hok
  unfold slotOf noOf
  cases hpc : (s.thr t).pc with
  | notCreated => exact absurd hpc hc
  | readPool => rw [hpc] at hok; exact hok
  | readSize => rw [hpc] at hok; exact hok
  | readNo => rw [hpc] at hok; exact ⟨hok.1, hok.2.2⟩
  | chunk => rw [hpc] at hok; exact ⟨hok.1, hok.2.2⟩
  | abort => rw [hpc] at hok; exact hok.elim
  | done r => rw [hpc] at hok; cases r <;> exact ⟨hok.1.1, hok.1.2.2⟩
  | _ => rw [hpc] at hok; exact ⟨hok.1.1, hok.1.2.2⟩

/-! ## Crooked threads -/

/-- Reading a parameter does not change what a thread has or will have. -/
theorem crooked_thread (hs : threadStep c s t = some s') (u : Nat) :
    Crooked s' u ↔ Crooked s u := by
  have key : ∀ l : Thread, Moved s s' t l → (s.thr t).pc ≠ .notCreated → l.pc ≠ .notCreated →
      slotOf s' t = slotOf s t → noOf s' t = noOf s t → (Crooked s' u ↔ Crooked s u) := by
    intro l hm h1 h2 h3 h4
    unfold Crooked
    by_cases hu : u = t
    · subst hu
      rw [h3, h4, hm.self]
      simp [h1, h2]
    · unfold slotOf noOf
      rw [hm.other hu, hm.param]
  unfold threadStep at hs
  cases hpc : (s.thr t).pc with
  | notCreated => simp only [hpc] at hs; cases hs
  | chunk =>
    simp only [hpc] at hs
    split at hs
    · split at hs <;> cases hs <;>
        exact key _ ⟨rfl, rfl, rfl⟩ (by simp [hpc]) (by simp) (by simp [slotOf, St.setPool, hpc])
          (by simp [noOf, St.setPool, hpc])
    · cases hs
      exact key _ ⟨rfl, rfl, rfl⟩ (by simp [hpc]) (by simp) (by simp [slotOf, St.setPool, hpc])
        (by simp [noOf, St.setPool, hpc])
  | hash =>
    simp only [hpc] at hs
    split at hs <;> cases hs <;>
      exact key _ ⟨rfl, rfl, rfl⟩ (by simp [hpc]) (by simp)
        (by simp [slotOf, St.setPool, St.setThr, hpc]) (by simp [noOf, St.setPool, St.setThr, hpc])
  | abort => simp only [hpc] at hs; cases hs
  | done r => simp only [hpc] at hs; cases hs
  | _ =>
    simp only [hpc] at hs
    cases hs
    exact key _ ⟨rfl, rfl, rfl⟩ (by simp [hpc]) (by simp)
      (by simp [slotOf, St.setPool, St.setThr, hpc]) (by simp [noOf, St.setPool, St.setThr, hpc])

/-- A step of the loop that leaves the parameters and the created threads alone. -/
theorem crooked_same {u : Nat} (hp : s'.param = s.param) (ht : s'.thr u = s.thr u) :
    Crooked s' u ↔ Crooked s u := by
  unfold Crooked slotOf noOf
  rw [hp, ht]

/-- A crooked thread stays crooked. -/
theorem crooked_main (h : Inv c s) (hs : mainStep c s = some s') {u : Nat} (hc : Crooked s u) :
    Crooked s' u := by
  have hm := h.main
  unfold MainOk at hm
  unfold mainStep at hs
  cases hpc : s.mainPc with
  | setPool i =>
    rw [hpc] at hs hm
    cases hs
    have hui : u < i := ((hm.2 u).mp hc.1).1
    refine ⟨hc.1, ?_⟩
    have h2 := hc.2
    unfold slotOf noOf at h2 ⊢
    cases hu : (s.thr u).pc <;> simp only [hu] at h2 ⊢ <;> omega
  | setSize i =>
    rw [hpc] at hs
    cases hs
    exact hc
  | setNo i =>
    rw [hpc] at hs hm
    cases hs
    have hui : u < i := ((hm.2.1 u).mp hc.1).1
    refine ⟨hc.1, ?_⟩
    have h2 := hc.2
    unfold slotOf noOf at h2 ⊢
    cases hu : (s.thr u).pc <;> simp only [hu] at h2 ⊢ <;> omega
  | create i =>
    rw [hpc] at hs hm
    have hui : u ≠ i := by
      have := ((hm.2.1 u).mp hc.1).1
      omega
    simp only [if_neg (Int.not_lt.mpr (c.create_nonneg i))] at hs
    by_cases hz : c.pthreadCreate i = 0
    · rw [if_pos hz] at hs
      cases hs
      refine (crooked_same ?_ ?_).mpr hc
      · rfl
      · exact Function.update_of_ne hui _ _
    · rw [if_neg hz] at hs
      cases hs
      exact hc
  | join i =>
    rw [hpc] at hs
    cases hti : (s.thr i).pc with
    | done r => simp only [hti] at hs; cases hs; exact hc
    | notCreated => simp only [hti] at hs; cases hs; exact hc
    | _ => simp only [hti] at hs; cases hs
  | setSizes => rw [hpc] at hs; cases hs; exact hc
  | returned r => rw [hpc] at hs; cases hs

theorem crooked_step (h : Inv c s) {a : Act} (hs : step c s a = some s') {u : Nat}
    (hc : Crooked s u) : Crooked s' u := by
  cases a with
  | main => exact crooked_main h hs hc
  | thread t => exact (crooked_thread hs u).mpr hc

/-- A write before a read makes the reader crooked. -/
theorem crooked_of_not_ordered (h : Inv c s) {a : Act} (hs : step c s a = some s')
    (ho : ¬ Ordered c s a) : ∃ u, Crooked s' u := by
  unfold Ordered at ho
  rw [Classical.not_imp] at ho
  obtain ⟨rfl, ho⟩ := ho
  have hm := h.main
  unfold MainOk at hm
  change mainStep c s = some s' at hs
  unfold mainStep at hs
  cases hpc : s.mainPc with
  | setPool i =>
    rw [hpc] at hs hm ho
    cases hs
    simp only [Classical.not_forall, not_not] at ho
    obtain ⟨u, -, hu⟩ := ho
    have hui : u < i := ((hm.2 u).mp (by simp [hu])).1
    exact ⟨u, by simp [hu], Or.inl (by simpa [slotOf, hu] using hui)⟩
  | setNo i =>
    rw [hpc] at hs hm ho
    cases hs
    simp only [Classical.not_forall] at ho
    obtain ⟨u, -, hu⟩ := ho
    have hread : (s.thr u).pc = .readPool ∨ (s.thr u).pc = .readSize ∨ (s.thr u).pc = .readNo := by
      apply Classical.byContradiction
      intro hn
      simp only [not_or] at hn
      exact hu hn
    have hnc : (s.thr u).pc ≠ .notCreated := by
      rcases hread with h | h | h <;> simp [h]
    have hui : u < i := ((hm.2.1 u).mp hnc).1
    refine ⟨u, hnc, Or.inr ?_⟩
    rcases hread with h | h | h <;> simpa [noOf, h] using hui
  | _ => rw [hpc] at ho; exact absurd trivial ho

/-- Steps in order make no thread crooked. -/
theorem straight_step (h : Inv c s) {a : Act} (ho : Ordered c s a) (hs : step c s a = some s')
    (hst : ∀ u, ¬ Crooked s u) : ∀ u, ¬ Crooked s' u := by
  intro u hc
  cases a with
  | thread t => exact hst u ((crooked_thread hs u).mp hc)
  | main =>
    have hm := h.main
    unfold MainOk at hm
    change mainStep c s = some s' at hs
    unfold mainStep at hs
    have ho := ho rfl
    cases hpc : s.mainPc with
    | setPool i =>
      rw [hpc] at hs hm ho
      cases hs
      have hnr := ho u (h.created_lt hc.1)
      refine hst u ⟨hc.1, ?_⟩
      have h2 := hc.2
      unfold slotOf noOf at h2 ⊢
      cases hu : (s.thr u).pc <;> simp only [hu] at h2 ⊢ <;> first | exact h2 | exact absurd hu hnr
    | setSize i =>
      rw [hpc] at hs
      cases hs
      exact hst u hc
    | setNo i =>
      rw [hpc] at hs hm ho
      cases hs
      obtain ⟨h3, h4, h5⟩ := ho u (h.created_lt hc.1)
      refine hst u ⟨hc.1, ?_⟩
      have h2 := hc.2
      unfold slotOf noOf at h2 ⊢
      cases hu : (s.thr u).pc <;> simp only [hu] at h2 ⊢ <;>
        first | exact h2 | exact absurd hu h3 | exact absurd hu h4 | exact absurd hu h5
    | create i =>
      rw [hpc] at hs hm
      simp only [if_neg (Int.not_lt.mpr (c.create_nonneg i))] at hs
      by_cases hz : c.pthreadCreate i = 0
      · rw [if_pos hz] at hs
        cases hs
        by_cases hui : u = i
        · subst hui
          have h2 := hc.2
          simp [slotOf, noOf, hm.2.2] at h2
        · refine hst u ((crooked_same ?_ ?_).mp hc)
          · rfl
          · exact Function.update_of_ne hui _ _
      · rw [if_neg hz] at hs
        cases hs
        exact hst u hc
    | join i =>
      rw [hpc] at hs
      cases hti : (s.thr i).pc with
      | done r => simp only [hti] at hs; cases hs; exact hst u hc
      | notCreated => simp only [hti] at hs; cases hs; exact hst u hc
      | _ => simp only [hti] at hs; cases hs
    | setSizes => rw [hpc] at hs; cases hs; exact hst u hc
    | returned r => rw [hpc] at hs; cases hs

/-! ## What the sequential function builds -/

/-- The pool of instance `i` when nothing fails. -/
def built (c : Config) (i : Nat) : Pool :=
  (initInstance c i zeroed c.size i c.nPageHashLocks).2.1

theorem initInstance_locks {i locks : Nat} (hl : ut2PowerUp locks = ut2PowerUp c.nPageHashLocks)
    (hf : ¬ Failing c i) :
    initInstance c i zeroed c.size i locks =
      (.DB_SUCCESS, built c i, (initInstance c i zeroed c.size i locks).2.2) ∧
    ut2PowerUp (initInstance c i zeroed c.size i locks).2.2 = ut2PowerUp c.nPageHashLocks := by
  unfold built initInstance
  by_cases hpos : 0 < c.size
  · simp only [if_pos hpos]
    cases hch : c.bufChunkInit i c.size with
    | none => exact absurd ⟨hpos, hch⟩ hf
    | some chunk =>
      simp only [hl]
      exact ⟨trivial, ut2PowerUp_idem _⟩
  · simp only [if_neg hpos]
    exact ⟨trivial, hl⟩

theorem seqLoop_built (hf : ∀ i < c.nInstances, ¬ Failing c i) :
    ∀ (k i : Nat) (pool : Nat → Pool) (locks : Nat), i + k = c.nInstances →
      ut2PowerUp locks = ut2PowerUp c.nPageHashLocks → (∀ j, i ≤ j → pool j = zeroed) →
      (∀ j < i, pool j = built c j) →
      ∀ j < c.nInstances, (seqLoop c k i pool locks).2 j = built c j := by
  intro k
  induction k with
  | zero =>
    intro i pool locks hik _ _ hb j hj
    exact hb j (by omega)
  | succ k ih =>
    intro i pool locks hik hl hz hb j hj
    obtain ⟨h1, h2⟩ := initInstance_locks hl (hf i (by omega))
    unfold seqLoop
    rw [hz i (Nat.le_refl i), h1]
    refine ih (i + 1) _ _ (by omega) h2 (fun m hm => ?_) (fun m hm => ?_) j hj
    · rw [Function.update_of_ne (by omega)]
      exact hz m (by omega)
    · by_cases hmi : m = i
      · subst hmi; rw [Function.update_self]
      · rw [Function.update_of_ne hmi]
        exact hb m (by omega)

theorem sequential_built (hf : ∀ i < c.nInstances, ¬ Failing c i) {i : Nat} (hi : i < c.nInstances) :
    (sequential c).2 i = built c i :=
  seqLoop_built hf c.nInstances 0 _ _ (Nat.zero_add _) rfl (fun _ _ => rfl)
    (fun j hj => absurd hj (Nat.not_lt_zero j)) i hi

/-! ## What the threads build -/

/-- Pool `t` when thread `t` is at `pc`. -/
def poolAt (c : Config) (t : Nat) : ThreadPc → Pool
  | .readLocks => withChunk
  | .writeLocks => withChunk
  | .hash => withChunk
  | .flush => withHash
  | .done .DB_SUCCESS => withHash.setFlush c
  | _ => zeroed
where
  withChunk : Pool := zeroed.setChunk c c.size t ((c.bufChunkInit t c.size).getD 0)
  withHash : Pool :=
    if 0 < c.size then withChunk.setHash (ut2PowerUp c.nPageHashLocks)
    else { zeroed with mutexes := true }

theorem poolAt_done (hf : ¬ Failing c t) : poolAt c t (.done .DB_SUCCESS) = built c t := by
  unfold poolAt poolAt.withHash poolAt.withChunk built initInstance
  by_cases hpos : 0 < c.size
  · simp only [if_pos hpos]
    cases hch : c.bufChunkInit t c.size with
    | none => exact absurd ⟨hpos, hch⟩ hf
    | some chunk => rfl
  · simp only [if_neg hpos]

structure Own (c : Config) (s : St) : Prop where
  straight : ∀ u, ¬ Crooked s u
  pools : ∀ t < c.nInstances, s.pool t = poolAt c t (s.thr t).pc
  locks : ∀ t, (s.thr t).pc = .hash → s.nPageHashLocks = ut2PowerUp c.nPageHashLocks

/-- A thread that has copied its parameters has its own. -/
theorem Own.param (h : Inv c s) (ho : Own c s)
    (hpc : (s.thr t).pc ≠ .notCreated ∧ (s.thr t).pc ≠ .readPool ∧ (s.thr t).pc ≠ .readSize ∧
      (s.thr t).pc ≠ .readNo) : (s.thr t).param = ⟨t, c.size, t⟩ := by
  obtain ⟨h1, h2, h3, h4⟩ := hpc
  obtain ⟨h5, h6⟩ := h.slot_ge h1
  have h7 := ho.straight t
  have hslot : slotOf s t = (s.thr t).param.bufPool := by
    unfold slotOf
    split
    · next hp => exact absurd hp h2
    · rfl
  have hno : noOf s t = (s.thr t).param.instanceNo := by
    unfold noOf
    split
    · next hp => exact absurd hp h2
    · next hp => exact absurd hp h3
    · next hp => exact absurd hp h4
    · rfl
  have hsize : (s.thr t).param.bufPoolSize = c.size := by
    have hok := h.threads t
    unfold ThreadOk at hok
    cases hp : (s.thr t).pc with
    | notCreated => exact absurd hp h1
    | readPool => exact absurd hp h2
    | readSize => exact absurd hp h3
    | readNo => exact absurd hp h4
    | chunk => rw [hp] at hok; exact hok.2.1
    | abort => rw [hp] at hok; exact hok.elim
    | done r => rw [hp] at hok; cases r <;> exact hok.1.2.1
    | _ => rw [hp] at hok; exact hok.1.2.1
  unfold Crooked at h7
  simp only [not_and, not_or] at h7
  obtain ⟨h8, h9⟩ := h7 h1
  rw [hslot] at h5 h8
  rw [hno] at h6 h9
  have e1 : (s.thr t).param.bufPool = t := by omega
  have e2 : (s.thr t).param.instanceNo = t := by omega
  calc (s.thr t).param = ⟨(s.thr t).param.bufPool, (s.thr t).param.bufPoolSize,
        (s.thr t).param.instanceNo⟩ := rfl
    _ = ⟨t, c.size, t⟩ := by rw [e1, e2, hsize]

theorem own_main (hs : mainStep c s = some s') (hst : ∀ u, ¬ Crooked s' u)
    (hm : MainOk c s) (ho : Own c s) : Own c s' := by
  unfold MainOk at hm
  unfold mainStep at hs
  cases hpc : s.mainPc with
  | create i =>
    rw [hpc] at hs hm
    simp only [if_neg (Int.not_lt.mpr (c.create_nonneg i))] at hs
    by_cases hz : c.pthreadCreate i = 0
    · rw [if_pos hz] at hs
      cases hs
      have hnc : (s.thr i).pc = .notCreated := by
        apply Classical.byContradiction
        intro hne
        exact Nat.lt_irrefl i ((hm.2.1 i).mp hne).1
      refine ⟨hst, fun t ht => ?_, fun t ht => ?_⟩
      · have := ho.pools t ht
        show s.pool t = poolAt c t (Function.update s.thr i _ t).pc
        by_cases hti : t = i
        · subst hti
          rw [this, hnc, Function.update_self]
          rfl
        · rw [Function.update_of_ne hti]
          exact this
      · by_cases hti : t = i
        · subst hti
          simp at ht
        · simp only [Function.update_of_ne hti] at ht
          exact ho.locks t ht
    · rw [if_neg hz] at hs
      cases hs
      exact ⟨hst, ho.pools, ho.locks⟩
  | join i =>
    rw [hpc] at hs
    cases hti : (s.thr i).pc with
    | done r => simp only [hti] at hs; cases hs; exact ⟨hst, ho.pools, ho.locks⟩
    | notCreated => simp only [hti] at hs; cases hs; exact ⟨hst, ho.pools, ho.locks⟩
    | _ => simp only [hti] at hs; cases hs
  | returned r => rw [hpc] at hs; cases hs
  | _ =>
    rw [hpc] at hs
    cases hs
    exact ⟨hst, ho.pools, ho.locks⟩

/-- Thread `t` moved and wrote at most to its own pool. -/
theorem Own.moveThread {l : Thread} (ho : Own c s) (hst : ∀ u, ¬ Crooked s' u) (hm : Moved s s' t l)
    (hpool : ∀ u, u ≠ t → s'.pool u = s.pool u) (hself : s'.pool t = poolAt c t l.pc)
    (hlocks : s'.nPageHashLocks = s.nPageHashLocks ∨
      s'.nPageHashLocks = ut2PowerUp c.nPageHashLocks)
    (hhash : l.pc = .hash → s'.nPageHashLocks = ut2PowerUp c.nPageHashLocks) : Own c s' := by
  refine ⟨hst, fun u hu => ?_, fun u hu => ?_⟩
  · by_cases hut : u = t
    · subst hut; rw [hm.self]; exact hself
    · rw [hpool u hut, hm.other hut]; exact ho.pools u hu
  · by_cases hut : u = t
    · subst hut; rw [hm.self] at hu; exact hhash hu
    · rw [hm.other hut] at hu
      rcases hlocks with hl | hl
      · rw [hl]; exact ho.locks u hu
      · exact hl

theorem own_thread (h : Inv c s) (hf : ∀ i < c.nInstances, ¬ Failing c i)
    (hs : threadStep c s t = some s') (hst : ∀ u, ¬ Crooked s' u) (ho : Own c s) : Own c s' := by
  have hok := h.threads t
  unfold ThreadOk at hok
  have hcr : (s.thr t).pc ≠ .notCreated := by
    intro hn
    unfold threadStep at hs
    simp only [hn] at hs
    cases hs
  have ht := h.created_lt hcr
  have hpool := ho.pools t ht
  unfold threadStep at hs
  cases hpc : (s.thr t).pc with
  | notCreated => exact absurd hpc hcr
  | readPool =>
    simp only [hpc] at hs hpool
    cases hs
    exact ho.moveThread hst ⟨rfl, rfl, rfl⟩ (fun _ _ => rfl) hpool (Or.inl rfl) (by simp)
  | readSize =>
    simp only [hpc] at hs hpool
    cases hs
    exact ho.moveThread hst ⟨rfl, rfl, rfl⟩ (fun _ _ => rfl) hpool (Or.inl rfl) (by simp)
  | readNo =>
    simp only [hpc] at hs hpool
    cases hs
    exact ho.moveThread hst ⟨rfl, rfl, rfl⟩ (fun _ _ => rfl) hpool (Or.inl rfl) (by simp)
  | chunk =>
    have hp := Own.param h ho (t := t) (by simp [hpc])
    simp only [hpc, hp, hpool] at hs
    by_cases hpos : 0 < c.size
    · rw [if_pos hpos] at hs
      cases hch : c.bufChunkInit t c.size with
      | none => exact absurd ⟨hpos, hch⟩ (hf t ht)
      | some chunk =>
        simp only [hch] at hs
        cases hs
        refine ho.moveThread hst ⟨rfl, rfl, rfl⟩ (fun u hu => ?_) ?_ (Or.inl rfl) (by simp)
        · simp only [St.setPool, hp]
          exact Function.update_of_ne hu _ _
        · simp only [St.setPool, hp, Function.update_self]
          simp [poolAt, poolAt.withChunk, hch]
    · rw [if_neg hpos] at hs
      cases hs
      refine ho.moveThread hst ⟨rfl, rfl, rfl⟩ (fun u hu => ?_) ?_ (Or.inl rfl) (by simp)
      · simp only [St.setPool, hp]
        exact Function.update_of_ne hu _ _
      · simp only [St.setPool, hp, Function.update_self]
        simp [poolAt, poolAt.withHash, hpos]
  | readLocks =>
    simp only [hpc] at hs hpool
    cases hs
    exact ho.moveThread hst ⟨rfl, rfl, rfl⟩ (fun _ _ => rfl) hpool (Or.inl rfl) (by simp)
  | writeLocks =>
    simp only [hpc] at hs hpool hok
    cases hs
    exact ho.moveThread hst ⟨rfl, rfl, rfl⟩ (fun _ _ => rfl) hpool (Or.inr hok.2.2)
      (fun _ => hok.2.2)
  | hash =>
    have hp := Own.param h ho (t := t) (by simp [hpc])
    have hl := ho.locks t hpc
    rw [hpc] at hok
    simp only [hpc, hp, hpool, if_pos h.locks_ok] at hs
    cases hs
    refine ho.moveThread hst ⟨rfl, rfl, rfl⟩ (fun u hu => ?_) ?_ (Or.inl rfl) (by simp)
    · simp only [St.setPool, hp]
      exact Function.update_of_ne hu _ _
    · simp only [St.setPool, hp, Function.update_self]
      rw [hl]
      simp [poolAt, poolAt.withHash, hok.2.2]
  | flush =>
    have hp := Own.param h ho (t := t) (by simp [hpc])
    simp only [hpc, hp, hpool] at hs
    cases hs
    refine ho.moveThread hst ⟨rfl, rfl, rfl⟩ (fun u hu => ?_) ?_ (Or.inl rfl) (by simp)
    · simp only [St.setPool, hp]
      exact Function.update_of_ne hu _ _
    · simp only [St.setPool, hp, Function.update_self]
      rfl
  | abort => simp only [hpc] at hs; cases hs
  | done r => simp only [hpc] at hs; cases hs

theorem own_initial (c : Config) (junk : Param) : Own c (initial c junk) :=
  ⟨fun _ hc => hc.1 rfl, fun _ _ => rfl, fun _ ht => by cases ht⟩

/-- A run in order: the invariant and the pools of the threads' own. -/
theorem own_run {junk : Param} {as : List Act} (hf : ∀ i < c.nInstances, ¬ Failing c i)
    (hp : (bufPoolInit c junk).AllSteps (Ordered c) (bufPoolInit c junk).init as)
    (hr : (bufPoolInit c junk).run as = some s) : Inv c s ∧ Own c s := by
  refine (bufPoolInit c junk).invariantOn (Ordered c) (fun s => Inv c s ∧ Own c s)
    ⟨inv_initial c junk, own_initial c junk⟩ ?_ hp hr
  rintro s a s' ⟨hi, ho⟩ hord hs
  have hst := straight_step hi hord hs ho.straight
  refine ⟨inv_step hi hs, ?_⟩
  cases a with
  | main => exact own_main hs hst hi.main ho
  | thread t => exact own_thread hi hf hs hst ho

/-- After the joins every thread has initialised a pool. -/
theorem all_done (h : Inv c s) (hok : NoFailure c) (hj : AfterJoins s) :
    ∀ t < c.nInstances, (s.thr t).pc = .done .DB_SUCCESS := by
  obtain ⟨hcr, hf⟩ := (noFailure_iff c).mp hok
  have hmj : Made c s c.nInstances ∧ ∀ t < c.nInstances, Joined (s.thr t) := by
    have hm := h.main
    unfold MainOk at hm
    rcases hj with hj | ⟨r, hj⟩
    · rw [hj] at hm; exact hm
    · rw [hj] at hm; exact hm.2
  intro t ht
  have hokt := h.threads t
  unfold ThreadOk at hokt
  rcases hmj.2 t ht with hn | ⟨r, hd⟩
  · exact absurd hn ((hmj.1 t).mpr ⟨ht, hcr t ht⟩)
  · cases r with
    | DB_SUCCESS => exact hd
    | DB_ERROR => rw [hd] at hokt; exact absurd hokt.2 (hf t ht)

theorem filter_fst_of_nodup {l : List (Nat × Param)} {t : Nat} {p : Param}
    (hn : (l.map Prod.fst).Nodup) (hm : (t, p) ∈ l) : l.filter (fun e => e.1 = t) = [(t, p)] := by
  induction l with
  | nil => simp at hm
  | cons e l ih =>
    rw [List.map_cons, List.nodup_cons] at hn
    rcases List.mem_cons.mp hm with rfl | hm
    · rw [List.filter_cons_of_pos (by simp)]
      have hnil : l.filter (fun e => e.1 = t) = [] := by
        rw [List.filter_eq_nil_iff]
        intro e he het
        exact hn.1 (List.mem_map.mpr ⟨e, he, of_decide_eq_true het⟩)
      rw [hnil]
    · have het : e.1 ≠ t := fun he => hn.1 (by rw [he]; exact List.mem_map.mpr ⟨(t, p), hm, rfl⟩)
      rw [List.filter_cons_of_neg (by simp [het])]
      exact ih hn.2 hm

theorem agrees_of_own (h : Inv c s) (ho : Own c s) (hok : NoFailure c) (hj : AfterJoins s) :
    Agrees c s := by
  obtain ⟨-, hf⟩ := (noFailure_iff c).mp hok
  have hdone := all_done h hok hj
  have hparam : ∀ t, (s.thr t).pc = .done .DB_SUCCESS → (s.thr t).param = ⟨t, c.size, t⟩ :=
    fun t ht => Own.param h ho (by simp [ht])
  intro i hi
  refine ⟨⟨i, ?_⟩, ?_⟩
  · have hsame : s.inits.filter (fun e => e.2.bufPool = i) = s.inits.filter (fun e => e.1 = i) := by
      apply List.filter_congr
      intro e he
      obtain ⟨h1, h2⟩ := h.initsDone e he
      rw [h2, hparam e.1 h1]
    rw [hsame]
    apply filter_fst_of_nodup h.initsOnce
    rw [← hparam i (hdone i hi)]
    exact h.initsAll i (hdone i hi)
  · rw [ho.pools i hi, hdone i hi, poolAt_done (hf i hi), sequential_built hf hi]

/-- If every pool was initialised with its own parameters, thread `i` did pool `i`. -/
theorem param_of_agrees (h : Inv c s) (hag : Agrees c s) :
    ∀ i < c.nInstances, (s.thr i).param = ⟨i, c.size, i⟩ := by
  intro i
  induction i using Nat.strong_induction_on with
  | _ i ih =>
    intro hi
    obtain ⟨⟨t, ht⟩, -⟩ := hag i hi
    have hmem : (t, (⟨i, c.size, i⟩ : Param)) ∈ s.inits := by
      have : (t, (⟨i, c.size, i⟩ : Param)) ∈ s.inits.filter (fun e => e.2.bufPool = i) := by
        rw [ht]; exact List.mem_cons_self
      exact List.mem_of_mem_filter this
    obtain ⟨hd, hp⟩ := h.initsDone _ hmem
    simp only at hd hp
    have hge : t ≤ i := by
      have := (h.slot_ge (t := t) (by simp [hd])).1
      simpa [slotOf, hd, ← hp] using this
    by_cases hti : t = i
    · rw [← hti] at hp ⊢
      exact hp.symm
    · have := ih t (by omega) (by omega)
      rw [← hp] at this
      simp only [Param.mk.injEq] at this
      omega

/-- **Parallel creation.**  After the joins the pools are those of the sequential `buf_pool_init`
exactly in the runs where the loop rewrites a parameter only after every thread has read it. -/
theorem parallel_agrees_iff (c : Config) (junk : Param) (as : List Act) (s : St)
    (hok : NoFailure c) (hr : (bufPoolInit c junk).run as = some s) (hj : AfterJoins s) :
    Agrees c s ↔ (bufPoolInit c junk).AllSteps (Ordered c) (bufPoolInit c junk).init as := by
  obtain ⟨-, hf⟩ := (noFailure_iff c).mp hok
  constructor
  · intro hag
    have h := inv_run hr
    rcases (bufPoolInit c junk).allSteps_or (Inv c) (Ordered c) (fun s => ∃ u, Crooked s u)
      (fun s a s' hi hs => inv_step hi hs)
      (fun s a s' hi ho hs => crooked_of_not_ordered hi hs ho)
      (fun s a s' hi ⟨u, hu⟩ hs => ⟨u, crooked_step hi hs hu⟩)
      as _ s (inv_initial c junk) hr with hall | ⟨u, hu⟩
    · exact hall
    · have hlt := h.created_lt hu.1
      have hp := param_of_agrees h hag u hlt
      have hd := all_done h hok hj u hlt
      have h2 := hu.2
      simp [slotOf, noOf, hd, hp] at h2
  · intro hp
    obtain ⟨h, ho⟩ := own_run hf hp hr
    exact agrees_of_own h ho hok hj

/-- Two instances of one page each, and nothing that fails. -/
def twoInstances : Config where
  totalSize := 32768
  nInstances := 2
  pageSize := 16384
  nPageHashLocks := 12
  nTmpSlots := 4
  bufChunkInit _ size := some (size / 16384)
  pthreadCreate _ := 0
  instances_pos := by decide
  locks_pos := by decide
  locks_le := by decide
  create_nonneg := create_succeeds

/-- Thread 0 has read its parameters before the loop goes on. -/
def orderedRun : List Act :=
  List.replicate 4 .main ++ List.replicate 3 (.thread 0) ++ List.replicate 4 .main ++
    List.replicate 8 (.thread 1) ++ List.replicate 5 (.thread 0) ++ List.replicate 3 .main

theorem parallel_agrees_orderedRun :
    ∃ s, (bufPoolInit twoInstances ⟨0, 0, 0⟩).run orderedRun = some s ∧
      s.mainPc = .returned .DB_SUCCESS ∧ Agrees twoInstances s := by
  have hs : (((bufPoolInit twoInstances ⟨0, 0, 0⟩).run orderedRun).any fun s =>
      decide (s.mainPc = .returned .DB_SUCCESS)) = true := by
    decide
  obtain ⟨s, hr, h0⟩ := (Option.any_eq_true _ _).mp hs
  have hret := of_decide_eq_true h0
  refine ⟨s, hr, hret, ?_⟩
  exact (parallel_agrees_iff twoInstances ⟨0, 0, 0⟩ orderedRun s (by decide) hr
    (Or.inr ⟨_, hret⟩)).mpr (by decide)

/-- The loop runs to its end before the threads read: both initialise pool 1 as instance 1. -/
def lateRun : List Act :=
  List.replicate 8 .main ++ List.replicate 8 (.thread 0) ++ List.replicate 8 (.thread 1) ++
    List.replicate 3 .main

theorem late_reads_same_pool :
    ∃ s, (bufPoolInit twoInstances ⟨0, 0, 0⟩).run lateRun = some s ∧
      s.mainPc = .returned .DB_SUCCESS ∧
      s.inits = [(1, ⟨1, 16384, 1⟩), (0, ⟨1, 16384, 1⟩)] ∧ s.pool 0 = zeroed ∧
      ¬ Agrees twoInstances s := by
  have hs : (((bufPoolInit twoInstances ⟨0, 0, 0⟩).run lateRun).any fun s =>
      decide (s.mainPc = .returned .DB_SUCCESS ∧
        s.inits = [(1, ⟨1, 16384, 1⟩), (0, ⟨1, 16384, 1⟩)] ∧ s.pool 0 = zeroed)) = true := by
    decide
  obtain ⟨s, hr, h0⟩ := (Option.any_eq_true _ _).mp hs
  obtain ⟨h1, h2, h3⟩ := of_decide_eq_true h0
  refine ⟨s, hr, h1, h2, h3, fun hag => ?_⟩
  obtain ⟨⟨t, ht⟩, -⟩ := hag 0 (by decide)
  rw [h2] at ht
  simp at ht

end

end MulticorePrac.BufPool
