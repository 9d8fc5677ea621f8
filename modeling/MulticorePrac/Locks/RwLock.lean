import MulticorePrac.Lib.Threads

/-!
# Lab7: the reader-writer lock (`rwlock.cc`)

The writer raises `writing` and waits until as many readers have left as have come; a
reader waits until `writing` is down and then counts itself in.  The counters are 32-bit
integers that wrap around; the two reads of the writer's test are made from left to right.

Between a reader's test of `writing` and its increment the writer may raise `writing`, read
equal counters and enter (`reader_and_writer_inside`).  The lock is right as long as the
writer finds no reader there when it reads `readAcquires` (`Settled`).
-/

namespace MulticorePrac.RwLock

/-- `set` and `clear` are the stores to `writing`; in `loadRel` the writer has read `acquires`. -/
inductive WriterPc
  | outside
  | set
  | loadAcq
  | loadRel (acquires : BitVec 32)
  | critical
  | clear
  deriving DecidableEq, Repr

inductive ReaderPc
  | outside
  | test
  | acquire
  | critical
  | release
  deriving DecidableEq, Repr

structure St where
  writing : Bool
  readAcquires : BitVec 32
  readReleases : BitVec 32
  writer : WriterPc
  reader : Nat → ReaderPc

inductive Act
  | writer
  | reader (r : Nat)
  deriving DecidableEq, Repr

/-- `writelock` and `writeunlock`; the writer calls one after the other. -/
def writerStep (s : St) : St :=
  match s.writer with
  | .outside => { s with writer := .set }
  | .set => { s with writing := true, writer := .loadAcq }
  | .loadAcq => { s with writer := .loadRel s.readAcquires }
  | .loadRel a => { s with writer := if a ≠ s.readReleases then .loadAcq else .critical }
  | .critical => { s with writer := .clear }
  | .clear => { s with writing := false, writer := .outside }

def St.goto (s : St) (r : Nat) (pc : ReaderPc) : St :=
  { s with reader := Function.update s.reader r pc }

/-- `readlock` and `readunlock` of reader `r`. -/
def readerStep (s : St) (r : Nat) : St :=
  match s.reader r with
  | .outside => s.goto r .test
  | .test => s.goto r (if s.writing then .test else .acquire)
  | .acquire => { s.goto r .critical with readAcquires := s.readAcquires + 1 }
  | .critical => s.goto r .release
  | .release => { s.goto r .outside with readReleases := s.readReleases + 1 }

def step (n : Nat) (s : St) : Act → Option St
  | .writer => some (writerStep s)
  | .reader r => if r < n then some (readerStep s r) else none

/-- One writer and `n` readers. -/
def machine (n : Nat) : Machine St Act where
  init := ⟨false, 0, 0, .outside, fun _ => .outside⟩
  step := step n

/-- No reader is between `readlock` and `readunlock` while the writer is between `writelock` and
`writeunlock`. -/
def Excluded (n : Nat) (s : St) : Prop :=
  s.writer = .critical → ∀ r < n, s.reader r ≠ .critical

/-- When the writer reads `readAcquires`, no reader is between its test and its increment. -/
def Settled (n : Nat) (s : St) : Act → Prop
  | .writer => s.writer = .loadAcq → ∀ r < n, s.reader r ≠ .acquire
  | .reader _ => True

instance (n : Nat) (s : St) : ∀ a, Decidable (Settled n s a)
  | .writer => inferInstanceAs (Decidable (_ → _))
  | .reader _ => isTrue trivial

/-! ## Counting the readers -/

/-- The reader has counted itself in and not out. -/
def ReaderPc.counted : ReaderPc → Bool
  | .critical | .release => true
  | _ => false

/-- What the writer has made sure of: from its read of `readAcquires` to its `writeunlock` no
reader is on its way in. -/
def Known (n : Nat) (s : St) : WriterPc → Prop
  | .outside | .set => True
  | .loadAcq | .clear => s.writing = true
  | .loadRel a => s.writing = true ∧ (∀ r < n, s.reader r ≠ .acquire) ∧ a = s.readAcquires
  | .critical => s.writing = true ∧ (∀ r < n, s.reader r ≠ .acquire) ∧
      tally ReaderPc.counted s.reader n = 0

structure Inv (n : Nat) (s : St) : Prop where
  count : s.readAcquires =
    s.readReleases + BitVec.ofNat 32 (tally ReaderPc.counted s.reader n)
  known : Known n s s.writer

section
variable {n : Nat} {s s' : St} {r : Nat}

/-- With fewer than `2 ^ 32` readers, equal counters mean that none is counted. -/
theorem Inv.none_counted (h : Inv n s) (hn : n < 2 ^ 32) (he : s.readAcquires = s.readReleases) :
    tally ReaderPc.counted s.reader n = 0 := by
  have hle := tally_le ReaderPc.counted s.reader n
  have hc := congrArg BitVec.toNat h.count
  rw [he, BitVec.toNat_add, BitVec.toNat_ofNat] at hc
  have hlt := s.readReleases.isLt
  omega

theorem inv_writer (h : Inv n s) (hn : n < 2 ^ 32) (hsettled : Settled n s .writer) :
    Inv n (writerStep s) := by
  have hknown := h.known
  unfold writerStep
  cases hw : s.writer with
  | outside => exact ⟨h.count, trivial⟩
  | set => exact ⟨h.count, rfl⟩
  | loadAcq =>
    rw [hw] at hknown
    exact ⟨h.count, hknown, hsettled hw, rfl⟩
  | loadRel a =>
    rw [hw] at hknown
    obtain ⟨hwriting, hnone, ha⟩ := hknown
    by_cases he : a = s.readReleases
    · simp only [ne_eq, he, not_true, if_false]
      exact ⟨h.count, hwriting, hnone, h.none_counted hn (ha.symm.trans he)⟩
    · simp only [ne_eq, he, not_false_iff, if_true]
      exact ⟨h.count, hwriting⟩
  | critical =>
    rw [hw] at hknown
    exact ⟨h.count, hknown.1⟩
  | clear => exact ⟨h.count, trivial⟩

/-- What the writer knows stays true when a reader moves that does not come in between. -/
theorem Known.reader {w : WriterPc} (h : Known n s w) (hwriting : s'.writing = s.writing)
    (hnone : s.writing = true → (∀ r < n, s.reader r ≠ .acquire) →
      (∀ r < n, s'.reader r ≠ .acquire) ∧ s'.readAcquires = s.readAcquires ∧
        tally ReaderPc.counted s'.reader n ≤ tally ReaderPc.counted s.reader n) :
    Known n s' w := by
  cases w with
  | outside => trivial
  | set => trivial
  | loadAcq => exact hwriting.trans h
  | loadRel a =>
    obtain ⟨hon, hno, ha⟩ := h
    obtain ⟨hno', hacq, _⟩ := hnone hon hno
    exact ⟨hwriting.trans hon, hno', ha.trans hacq.symm⟩
  | critical =>
    obtain ⟨hon, hno, hzero⟩ := h
    obtain ⟨hno', _, hle⟩ := hnone hon hno
    exact ⟨hwriting.trans hon, hno', by omega⟩
  | clear => exact hwriting.trans h

theorem ne_acquire_update {pc : ReaderPc} (h : ∀ u < n, s.reader u ≠ .acquire)
    (hpc : pc ≠ .acquire) : ∀ u < n, Function.update s.reader r pc u ≠ .acquire :=
  fun u hu => forall_update (P := fun u (l : ReaderPc) => u < n → l ≠ .acquire)
    (fun _ => hpc) (fun u _ => h u) u hu

/-- A step that counts no reader in or out. -/
theorem Inv.goto (h : Inv n s) (hr : r < n) {pc : ReaderPc}
    (hcounted : pc.counted = (s.reader r).counted) (hpc : s.writing = true → pc ≠ .acquire) :
    Inv n (s.goto r pc) := by
  have htally : tally ReaderPc.counted (s.goto r pc).reader n =
      tally ReaderPc.counted s.reader n := by
    have := tally_update ReaderPc.counted s.reader hr pc
    rw [hcounted] at this
    exact Nat.add_right_cancel this
  refine ⟨?_, h.known.reader rfl fun hon hno => ?_⟩
  · rw [htally]
    exact h.count
  · exact ⟨ne_acquire_update hno (hpc hon), rfl, Nat.le_of_eq htally⟩

theorem inv_reader (h : Inv n s) (hr : r < n) : Inv n (readerStep s r) := by
  have hcount := h.count
  unfold readerStep
  cases hpc : s.reader r with
  | outside => exact h.goto hr (by rw [hpc]; rfl) (by simp)
  | test =>
    cases hw : s.writing with
    | true => exact h.goto hr (by rw [hpc]; rfl) (by simp)
    | false => exact h.goto hr (by rw [hpc]; rfl) (by simp [hw])
  | acquire =>
    have htally := tally_update ReaderPc.counted s.reader hr .critical
    rw [hpc] at htally
    have hone : tally ReaderPc.counted (s.goto r .critical).reader n =
        tally ReaderPc.counted s.reader n + 1 := htally
    refine ⟨?_, h.known.reader rfl fun _ hno => absurd hpc (hno r hr)⟩
    show s.readAcquires + 1 =
      s.readReleases + BitVec.ofNat 32 (tally _ (s.goto r .critical).reader n)
    rw [hone, hcount, BitVec.ofNat_add, BitVec.add_assoc]
    rfl
  | critical => exact h.goto hr (by rw [hpc]; rfl) (by simp)
  | release =>
    have htally := tally_update ReaderPc.counted s.reader hr .outside
    rw [hpc] at htally
    have hone : tally ReaderPc.counted (s.goto r .outside).reader n + 1 =
        tally ReaderPc.counted s.reader n := htally
    refine ⟨?_, h.known.reader rfl fun _ hno => ?_⟩
    · show s.readAcquires =
        s.readReleases + 1 + BitVec.ofNat 32 (tally _ (s.goto r .outside).reader n)
      rw [hcount, ← hone, BitVec.ofNat_add, BitVec.add_assoc, BitVec.add_comm 1]
      rfl
    · refine ⟨ne_acquire_update hno (by simp), rfl, ?_⟩
      show tally _ (s.goto r .outside).reader n ≤ _
      omega

theorem inv_step {a : Act} (hn : n < 2 ^ 32) (h : Inv n s) (hsettled : Settled n s a)
    (hs : step n s a = some s') : Inv n s' := by
  cases a with
  | writer =>
    cases hs
    exact inv_writer h hn hsettled
  | reader r =>
    simp only [step] at hs
    split at hs
    · rename_i hr
      cases hs
      exact inv_reader h hr
    · cases hs

theorem Inv.excluded (h : Inv n s) : Excluded n s := by
  intro hw r hr hc
  have hknown := h.known
  rw [hw] at hknown
  have := tally_eq_zero.mp hknown.2.2 r hr
  rw [hc] at this
  cases this

end

theorem inv_initial (n : Nat) : Inv n (machine n).init := by
  have hzero : tally ReaderPc.counted (machine n).init.reader n = 0 :=
    tally_eq_zero.mpr fun _ _ => rfl
  refine ⟨?_, trivial⟩
  rw [hzero]
  rfl

/-- In a run in which the writer never reads `readAcquires` while a reader is on its way in,
readers and the writer exclude each other. -/
theorem readers_excluded {n : Nat} (hn : n < 2 ^ 32) {as : List Act} {s : St}
    (hsettled : (machine n).AllSteps (Settled n) (machine n).init as)
    (hs : (machine n).run as = some s) : Excluded n s :=
  ((machine n).invariantOn (Settled n) (Inv n) (inv_initial n)
    (fun _ _ _ h hp => inv_step hn h hp) hsettled hs).excluded

/-- Reader 0 is inside when the writer comes, reader 1 is on its way in and gets there before
the writer looks; the writer enters when both have left. -/
def settledRun : List Act :=
  [.reader 0, .reader 0, .reader 0, .reader 1, .reader 1, .writer, .writer, .reader 1, .writer,
    .writer, .reader 0, .reader 0, .reader 1, .reader 1, .reader 1, .writer, .writer]

theorem readers_excluded_settledRun :
    (machine 2).AllSteps (Settled 2) (machine 2).init settledRun ∧
    ∃ s, (machine 2).run settledRun = some s ∧ s.writer = .critical ∧ Excluded 2 s := by
  have hsettled : (machine 2).AllSteps (Settled 2) (machine 2).init settledRun := by decide
  have hs : (((machine 2).run settledRun).any fun s => decide (s.writer = .critical)) = true := by
    decide
  obtain ⟨s, hrun, hp⟩ := (Option.any_eq_true _ _).mp hs
  exact ⟨hsettled, s, hrun, of_decide_eq_true hp, readers_excluded (by decide) hsettled hrun⟩

/-- The reader has tested `writing` when the writer comes; then both are inside. -/
theorem reader_and_writer_inside : ∃ s, (machine 1).run
    [.reader 0, .reader 0, .writer, .writer, .writer, .writer, .reader 0] = some s ∧
    ¬Excluded 1 s := by
  have hs : (((machine 1).run
      [.reader 0, .reader 0, .writer, .writer, .writer, .writer, .reader 0]).any fun s =>
      decide (s.writer = .critical ∧ s.reader 0 = .critical)) = true := by decide
  obtain ⟨s, hrun, hp⟩ := (Option.any_eq_true _ _).mp hs
  obtain ⟨hw, hr⟩ := of_decide_eq_true hp
  exact ⟨s, hrun, fun h => h hw 0 Nat.one_pos hr⟩

end MulticorePrac.RwLock
