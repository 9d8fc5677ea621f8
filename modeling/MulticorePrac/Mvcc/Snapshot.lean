import MulticorePrac.Mvcc.Gc

/-!
# Snapshot reads, and GC nobody can observe

The relation `Rel` of a run and the same run without GC, over whole runs.  With
one read of each head during the scan it holds in every run
(`gc_unobservable`).  As the source is written, the scan reads a head again to
assign it, and the relation holds in the runs where that second read sees the
head that was compared (`reads_snapshot`).
-/

namespace MulticorePrac.Mvcc

/-! ## Whole runs -/

/-- `s` is related to `t`, and a scan that reads each head once is not about to read one again. -/
def Refines (m : HeadLoads) (rand : Nat → Nat) (n : Nat) (s t : St) : Prop :=
  (∃ L M, Rel rand n L M s t) ∧ (m = .once → ∀ k a, s.gcPc ≠ .setLoad k a)

section
variable {m : HeadLoads} {rand : Nat → Nat} {n : Nat} {L : Nat → DataList} {s s' t : St}

theorem scanFrom_ne_setLoad (n k j a : Nat) : scanFrom n k ≠ .setLoad j a := by
  unfold scanFrom walkFrom
  split
  · simp
  · split <;> simp

theorem walkFrom_ne_setLoad (n k j a : Nat) : walkFrom n k ≠ .setLoad j a := by
  unfold walkFrom
  split <;> simp

theorem gc_once_ne_setLoad (hs : gc .once n s = some s') (k a : Nat) : s'.gcPc ≠ .setLoad k a := by
  have hscan := fun j => scanFrom_ne_setLoad n j k a
  have hwalk := fun j => walkFrom_ne_setLoad n j k a
  unfold gc at hs
  cases hg : s.gcPc with
  | setLoad j b =>
    rw [hg] at hs
    cases hb : s.head j <;> simp only [hb, Option.some.injEq] at hs <;> subst hs <;> simp
  | _ =>
    rw [hg] at hs
    simp only at hs
    repeat' split at hs
    all_goals
      simp only [Option.some.injEq, reduceCtorEq] at hs
    all_goals
      subst hs
      simp [hscan, hwalk]

theorem refines_initial (m : HeadLoads) (rand : Nat → Nat) (n : Nat) :
    Refines m rand n (initial rand n) (initial rand n) := by
  refine ⟨⟨_, _, inv_initial rand n, rfl, (inv_initial rand n).chain, fun i _ => List.Sublist.refl _,
    fun i _ e he hnot => absurd he hnot, trivial⟩, fun _ k a => ?_⟩
  simp [initial]

/-- A step of an update thread is a step of the run without GC. -/
theorem Refines.keep {a : Act} (ha : a ≠ .gc) (h : Refines m rand n s t)
    (hs : step m n s a = some s') : ∃ t', step m n t a = some t' ∧ Refines m rand n s' t' := by
  obtain ⟨⟨L, M, h⟩, hm⟩ := h
  have hthr : s.thr = t.thr := by rw [h.same]; rfl
  cases a with
  | gc => exact absurd rfl ha
  | thread x =>
    obtain ⟨hx, hs⟩ := step_thread.mp hs
    obtain ⟨t', ht, h'⟩ := h.thread hx hs
    obtain ⟨_, _, hs'⟩ := h.updateAB hx hs
    refine ⟨t', step_thread.mpr ⟨hx, ht⟩, ⟨_, _, h'⟩, fun e k a => ?_⟩
    rw [hs']
    exact hm e k a
  | pick x i =>
    obtain ⟨hx, hpc, rfl⟩ := step_pick.mp hs
    have hpc' : (t.thr x).pc = .pick := by rw [← hthr]; exact hpc
    exact ⟨_, step_pick.mpr ⟨hx, hpc', rfl⟩, ⟨_, _, h.pick hx.2 hpc⟩, hm⟩

/-- A step of GC leaves the run without GC where it is. -/
theorem Refines.drop (hst : m = .each → SameHead s) (h : Refines m rand n s t)
    (hs : gc m n s = some s') : Refines m rand n s' t := by
  obtain ⟨⟨L, M, h⟩, hm⟩ := h
  have hsame : SameHead s := by
    cases m with
    | each => exact hst rfl
    | once =>
      unfold SameHead
      split
      · next k a hg => exact absurd hg (hm rfl k a)
      · trivial
  obtain ⟨M', h'⟩ := h.gc hsame hs
  refine ⟨⟨L, M', h'⟩, fun e => ?_⟩
  subst e
  exact gc_once_ne_setLoad hs

/-- GC is about to assign a head that it did not compare: no such step. -/
def Steady (s : St) (a : Act) : Prop := a = .gc → SameHead s

instance (s : St) (a : Act) : Decidable (Steady s a) := inferInstanceAs (Decidable (_ → _))

/-- The schedule without GC. -/
def withoutGc (as : List Act) : List Act := as.filter fun a => a ≠ .gc

theorem refines_run {as : List Act}
    (hp : (mvcc m rand n).AllSteps (fun s a => m = .each → Steady s a) (mvcc m rand n).init as)
    (hr : (mvcc m rand n).run as = some s) :
    ∃ t, (mvcc m rand n).run (withoutGc as) = some t ∧ Refines m rand n s t := by
  refine (mvcc m rand n).simulateOn _ (fun a => a ≠ .gc) _ (refines_initial m rand n) ?_ ?_ hp hr
  · intro s t a s' ha h _ hs
    exact h.keep (by simpa using ha) hs
  · intro s t a s' ha h hst hs
    have ha' : a = .gc := by simpa using ha
    subst ha'
    exact h.drop (fun e => hst e rfl) hs

/-! ## Nodes nobody reads -/

/-- No thread ever looks at node `a` again, in any continuation by the update threads. -/
def NeverRead (rand : Nat → Nat) (n : Nat) (t : St) (a : Nat) : Prop :=
  ∀ bs u, .gc ∉ bs → (mvcc .once rand n).runFrom t bs = some u →
    ∀ x < n, (u.thr x).pc ≠ .test (some a) ∧ (u.thr x).pc ≠ .next a

/-- A pointer of a reader is never at a node that is older than what everybody reads. -/
theorem Inv.not_at_spare (h : Inv rand n L t) {i x : Nat} {e : Nat × Data} (hi : i < n) (hx : x < n)
    (he : e ∈ L i) (hsp : Spare rand n t i (e.2.version + 1)) :
    (t.thr x).pc ≠ .test (some e.1) ∧ (t.thr x).pc ≠ .next e.1 := by
  have hok := h.pcOk x hx
  unfold PcOk at hok
  constructor
  · intro hpc
    rw [hpc] at hok
    obtain ⟨hin, -, a, d, ha, hm, hle⟩ := hok
    obtain ⟨hij, hed⟩ := h.owner i hi _ hin e he (a, d) hm (Option.some.inj ha)
    have := hsp.2 x hx (reading_of_pc hpc (by simp) (by simp))
    rw [hij, hed] at this
    simp only at this
    omega
  · intro hpc
    rw [hpc] at hok
    obtain ⟨hin, -, d, hm, hlt⟩ := hok
    obtain ⟨hij, hed⟩ := h.owner i hi _ hin e he (e.1, d) hm rfl
    have := hsp.2 x hx (reading_of_pc hpc (by simp) (by simp))
    rw [hij, hed] at this
    simp only at this
    omega

theorem mem_threadList {x i : Nat} {e : Nat × Data} (he : e ∈ L i) : e ∈ threadList L t x i := by
  unfold threadList
  split
  · exact mem_pushList.mpr (Or.inl he)
  · exact he

theorem Inv.neverRead (h : Inv rand n L t) {i : Nat} {e : Nat × Data} (hi : i < n) (he : e ∈ L i)
    (hsp : Spare rand n t i (e.2.version + 1)) : NeverRead rand n t e.1 := by
  intro bs u hbs hu x hx
  have key : ∀ (bs : List Act) (t : St), .gc ∉ bs →
      (∃ L, Inv rand n L t ∧ e ∈ L i ∧ Spare rand n t i (e.2.version + 1)) →
      (mvcc .once rand n).runFrom t bs = some u →
      ∃ L, Inv rand n L u ∧ e ∈ L i ∧ Spare rand n u i (e.2.version + 1) := by
    intro bs
    induction bs with
    | nil =>
      intro t _ h hu
      cases hu
      exact h
    | cons b bs ih =>
      intro t hb h hu
      obtain ⟨t', ht, hu'⟩ := (Machine.runFrom_cons _).mp hu
      refine ih t' (fun hm => hb (List.mem_cons_of_mem _ hm)) ?_ hu'
      obtain ⟨L, h1, h2, h3⟩ := h
      change step .once n t b = some t' at ht
      cases b with
      | gc => exact absurd List.mem_cons_self hb
      | thread y =>
        obtain ⟨hy, ht⟩ := step_thread.mp ht
        exact ⟨_, inv_thread h1 hy ht, mem_threadList h2, h3.thread h1 hy ht hi⟩
      | pick y j =>
        obtain ⟨hy, hpc, rfl⟩ := step_pick.mp ht
        exact ⟨L, inv_pick h1 hy.2 hpc, h2, h3.of_same rfl fun z _ hr =>
          ⟨reading_update (reading_of_pc hpc (by simp) (by simp)) hr, rfl⟩⟩
  obtain ⟨L', h1, h2, h3⟩ := key bs t hbs ⟨L, h, he, hsp⟩ hu
  exact h1.not_at_spare hi hx h2 h3

end

/-! ## The two results -/

/-- **GC is safe and unobservable**, when its scan reads each head once. -/
theorem gc_unobservable (rand : Nat → Nat) (n : Nat) (as : List Act) (s : St)
    (hr : (mvcc .once rand n).run as = some s) :
    ∃ t, (mvcc .once rand n).run (withoutGc as) = some t ∧
      s.head = t.head ∧ s.thr = t.thr ∧ s.log = t.log ∧
      s.gcPc ≠ .fault ∧ (∀ x < n, ∀ f, (s.thr x).pc ≠ .fault f) ∧
      ∀ i < n, ∃ kept all : DataList, Chain s.heap (s.head i) kept ∧
        Chain t.heap (t.head i) all ∧ kept.Sublist all ∧
        ∀ e ∈ all, e ∉ kept → NeverRead rand n t e.1 := by
  have hp : (mvcc .once rand n).AllSteps (fun s a => HeadLoads.once = .each → Steady s a)
      (mvcc .once rand n).init as :=
    Machine.allSteps_of_forall _ (fun s a h => by cases h) as _
  obtain ⟨t, ht, ⟨L, M, h⟩, -⟩ := refines_run hp hr
  have hhead : s.head = t.head := by rw [h.same]; rfl
  have hthr : s.thr = t.thr := by rw [h.same]; rfl
  have hlog : s.log = t.log := by rw [h.same]; rfl
  refine ⟨t, ht, hhead, hthr, hlog, ?_, ?_, ?_⟩
  · intro hg
    have := h.gcOk
    rw [hg] at this
    exact this
  · intro x hx f hpc
    have := h.inv.pcOk x hx
    unfold PcOk at this
    rw [← hthr, hpc] at this
    exact this
  · intro i hi
    refine ⟨M i, L i, ?_, h.inv.chain i hi, h.sub i hi, fun e he hnot => ?_⟩
    · rw [hhead]
      exact h.chain i hi
    · exact h.inv.neverRead hi he (h.erased i hi e he hnot).2

/-- One transaction of thread `x` that reads its own data. -/
def ownTx (x : Nat) : List Act := [.thread x, .pick x x] ++ List.replicate 5 (.thread x)

/-- Three transactions, and a GC that erases the initial node. -/
def erasingRun : List Act := ownTx 0 ++ ownTx 0 ++ ownTx 0 ++ List.replicate 10 .gc

theorem gc_unobservable_erasing :
    ∃ s t, (mvcc .once (fun _ => 7) 1).run erasingRun = some s ∧ s.heap 0 = none ∧
      (mvcc .once (fun _ => 7) 1).run (withoutGc erasingRun) = some t ∧ s.log = t.log := by
  have hs : (((mvcc .once (fun _ => 7) 1).run erasingRun).any fun s => s.heap 0 == none) = true := by
    decide
  obtain ⟨s, hr, h0⟩ := (Option.any_eq_true _ _).mp hs
  obtain ⟨t, ht, -, -, hlog, -⟩ := gc_unobservable _ _ _ s hr
  exact ⟨s, t, hr, by simpa using h0, ht, hlog⟩

/-- **Snapshot reads**, in every run in which GC assigns only heads that it compared. -/
theorem reads_snapshot (rand : Nat → Nat) (n : Nat) (as : List Act) (s : St)
    (hp : (mvcc .each rand n).AllSteps Steady (mvcc .each rand n).init as)
    (hr : (mvcc .each rand n).run as = some s) : ReadsSnapshot rand s.log := by
  obtain ⟨t, -, ⟨L, M, h⟩, -⟩ := refines_run (Machine.AllSteps.imp _ (fun _ _ h _ => h) _ _ hp) hr
  have hlog : s.log = t.log := by rw [h.same]; rfl
  rw [hlog]
  exact h.inv.reads

/-- A GC, a reader of thread 1's data that starts before it and ends after it. -/
def steadyRun : List Act :=
  ownTx 1 ++ [.thread 0, .pick 0 1] ++ List.replicate 14 .gc ++ List.replicate 2 (.thread 0)

theorem reads_snapshot_steadyRun :
    ∃ s, (mvcc .each (fun _ => 7) 2).run steadyRun = some s ∧
      s.log.head? = some (.read 0 1 (3, ⟨2, 14, 86⟩)) ∧ ReadsSnapshot (fun _ => 7) s.log := by
  have hs : (((mvcc .each (fun _ => 7) 2).run steadyRun).any fun s =>
      s.log.head? == some (.read 0 1 (3, ⟨2, 14, 86⟩))) = true := by
    decide
  obtain ⟨s, hr, h0⟩ := (Option.any_eq_true _ _).mp hs
  exact ⟨s, hr, by simpa using h0, reads_snapshot _ _ steadyRun s (by decide) hr⟩

/-- GC compares the head of thread 1 with the head of thread 0 and stops.  Thread 0 takes its
snapshot, thread 1 commits three times, and GC assigns thread 1's new head to
`ref_min_version` (line 106 reads it again).  It then erases the node that thread 0 is to read,
and thread 0 walks on to an older one. -/
def rereadRun : List Act :=
  ownTx 1 ++ ownTx 0 ++ List.replicate 8 .gc ++ [.thread 0, .pick 0 1] ++
    ownTx 1 ++ ownTx 1 ++ ownTx 1 ++ List.replicate 15 .gc ++ List.replicate 8 (.thread 0)

theorem reread_reads_older :
    ∃ s, (mvcc .each (fun _ => 7) 2).run rereadRun = some s ∧
      s.log.head? = some (.read 0 1 (1, ⟨1, 7, 93⟩)) ∧
      lastCommitted (fun _ => 7) (atSnapshot s.log 0) 1 = (3, ⟨2, 14, 86⟩) ∧
      ¬ ReadsSnapshot (fun _ => 7) s.log := by
  have hs : (((mvcc .each (fun _ => 7) 2).run rereadRun).any fun s =>
      decide (s.log.head? = some (.read 0 1 (1, ⟨1, 7, 93⟩)) ∧
        lastCommitted (fun _ => 7) (atSnapshot s.log 0) 1 = (3, ⟨2, 14, 86⟩) ∧
        ¬ ReadsSnapshot (fun _ => 7) s.log)) = true := by
    decide
  obtain ⟨s, hr, h0⟩ := (Option.any_eq_true _ _).mp hs
  exact ⟨s, hr, of_decide_eq_true h0⟩

end MulticorePrac.Mvcc
