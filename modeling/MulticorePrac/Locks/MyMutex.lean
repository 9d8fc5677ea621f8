import MulticorePrac.Lib.Machine
import MulticorePrac.Lib.Threads

/-!
# Project2: `MyMutex` (`my_mutex.cpp`)

`Lock` tries to put the thread's id on the empty throne by a compare-and-swap whose
result it ignores, and then reads `throne_`; it returns when it reads its own id, and
else tries again.  `Unlock` stores `EMPTY` and checks nothing.  The compare-and-swap, the
read and the store are steps of their own; what `Lock` does between two tries (`dummy_`,
`nanosleep`) touches no shared state that is read.

The throne is taken by a compare-and-swap, so its value changes from one id to another
only through `EMPTY`, and only its owner stores that (`Inv`).
-/

namespace MulticorePrac.MyMutex

def EMPTY : Int := -1

/-- Where a thread is: `cas1`, `read1` are the first try, `cas2`, `read2` those of the loop, and
`unlock` is the store of `Unlock`. -/
inductive Pc
  | outside
  | cas1
  | read1
  | cas2
  | read2
  | critical
  | unlock
  deriving DecidableEq, Repr

structure St where
  throne : Int
  pc : Nat → Pc

def St.goto (s : St) (t : Nat) (pc : Pc) : St := { s with pc := Function.update s.pc t pc }

/-- `__sync_val_compare_and_swap(&throne_, EMPTY, thread_id)`. -/
def takeTheIronThrone (throne id : Int) : Int := if throne = EMPTY then id else throne

/-- The next step of thread `t`, with the ids `id`. -/
def threadStep (id : Nat → Int) (s : St) (t : Nat) : St :=
  match s.pc t with
  | .outside => s.goto t .cas1
  | .cas1 => { s.goto t .read1 with throne := takeTheIronThrone s.throne (id t) }
  | .read1 => s.goto t (if s.throne = id t then .critical else .cas2)
  | .cas2 => { s.goto t .read2 with throne := takeTheIronThrone s.throne (id t) }
  | .read2 => s.goto t (if s.throne = id t then .critical else .cas2)
  | .critical => s.goto t .unlock
  | .unlock => { s.goto t .outside with throne := EMPTY }

/-- The mutex and `n` threads that use it; a schedule names the thread of each step. -/
def machine (n : Nat) (id : Nat → Int) : Machine St Nat where
  init := ⟨EMPTY, fun _ => .outside⟩
  step s t := if t < n then some (threadStep id s t) else none

/-- Pairwise distinct ids that are not `EMPTY`. -/
structure IdsOk (n : Nat) (id : Nat → Int) : Prop where
  ne_empty : ∀ t < n, id t ≠ EMPTY
  inj : ∀ t < n, ∀ u < n, id t = id u → t = u

/-- Between the return of `Lock` and the completion of `Unlock`. -/
def Pc.Inside (pc : Pc) : Prop := pc = .critical ∨ pc = .unlock

/-- After a compare-and-swap, before the read of `throne_` that follows it. -/
def Pc.AtRead (pc : Pc) : Prop := pc = .read1 ∨ pc = .read2

instance (pc : Pc) : Decidable pc.Inside := inferInstanceAs (Decidable (_ ∨ _))

instance (pc : Pc) : Decidable pc.AtRead := inferInstanceAs (Decidable (_ ∨ _))

/-! ## Who is on the throne -/

structure Inv (n : Nat) (id : Nat → Int) (s : St) : Prop where
  inside : ∀ t < n, (s.pc t).Inside → s.throne = id t
  owner : ∀ t < n, s.throne = id t → (s.pc t).Inside ∨ (s.pc t).AtRead

section
variable {n : Nat} {id : Nat → Int} {s : St} {t : Nat}

theorem Inv.goto (h : Inv n id s) {pc : Pc} (hin : pc.Inside → s.throne = id t)
    (hown : s.throne = id t → pc.Inside ∨ pc.AtRead) : Inv n id (s.goto t pc) :=
  ⟨forall_update (P := fun u pc => u < n → Pc.Inside pc → s.throne = id u) (fun _ => hin)
      fun u _ => h.inside u,
    forall_update (P := fun u pc => u < n → s.throne = id u → Pc.Inside pc ∨ Pc.AtRead pc)
      (fun _ => hown) fun u _ => h.owner u⟩

/-- A compare-and-swap: if it takes the throne, nobody was inside. -/
theorem Inv.take (hid : IdsOk n id) (h : Inv n id s) (ht : t < n) {pc : Pc} (hpc : pc.AtRead)
    (hout : ¬pc.Inside) :
    Inv n id { s.goto t pc with throne := takeTheIronThrone s.throne (id t) } := by
  unfold takeTheIronThrone
  by_cases he : s.throne = EMPTY
  · rw [if_pos he]
    refine ⟨forall_update (P := fun u pc => u < n → Pc.Inside pc → id t = id u)
      (fun _ hc => absurd hc hout) fun u _ hu hin => ?_,
      forall_update (P := fun u pc => u < n → id t = id u → Pc.Inside pc ∨ Pc.AtRead pc)
        (fun _ _ => Or.inr hpc) fun u hne hu hown => ?_⟩
    · exact absurd (h.inside u hu hin ▸ he) (hid.ne_empty u hu)
    · exact absurd (hid.inj t ht u hu hown).symm hne
  · rw [if_neg he]
    exact h.goto (fun hc => absurd hc hout) fun _ => Or.inr hpc

/-- `Unlock` of the thread inside: it was the only one. -/
theorem Inv.release (hid : IdsOk n id) (h : Inv n id s) (ht : t < n) (hin : (s.pc t).Inside) :
    Inv n id { s.goto t .outside with throne := EMPTY } := by
  refine ⟨forall_update (P := fun u pc => u < n → Pc.Inside pc → EMPTY = id u)
    (fun _ hc => by rcases hc with hc | hc <;> cases hc) fun u hne hu hinu => ?_,
    forall_update (P := fun u pc => u < n → EMPTY = id u → Pc.Inside pc ∨ Pc.AtRead pc)
      (fun _ hc => absurd hc.symm (hid.ne_empty t ht)) fun u _ hu hc =>
        absurd hc.symm (hid.ne_empty u hu)⟩
  have heq : id t = id u := (h.inside t ht hin).symm.trans (h.inside u hu hinu)
  exact absurd (hid.inj t ht u hu heq).symm hne

/-- The read decides: the thread is inside if and only if it is on the throne. -/
theorem Inv.read (h : Inv n id s) :
    Inv n id (s.goto t (if s.throne = id t then .critical else .cas2)) := by
  by_cases he : s.throne = id t
  · rw [if_pos he]
    exact h.goto (fun _ => he) fun _ => Or.inl (Or.inl rfl)
  · rw [if_neg he]
    exact h.goto (fun hc => by rcases hc with hc | hc <;> cases hc) fun hc => absurd hc he

theorem inv_step (hid : IdsOk n id) (h : Inv n id s) (ht : t < n) :
    Inv n id (threadStep id s t) := by
  have hown := h.owner t ht
  have hin := h.inside t ht
  unfold threadStep
  cases hpc : s.pc t with
  | outside =>
    rw [hpc] at hown
    refine h.goto (fun hc => by rcases hc with hc | hc <;> cases hc) fun hc => ?_
    rcases hown hc with (hc | hc) | (hc | hc) <;> cases hc
  | cas1 => exact h.take hid ht (Or.inl rfl) (by decide)
  | read1 => exact h.read
  | cas2 => exact h.take hid ht (Or.inr rfl) (by decide)
  | read2 => exact h.read
  | critical =>
    rw [hpc] at hin
    exact h.goto (fun _ => hin (Or.inl rfl)) fun _ => Or.inl (Or.inr rfl)
  | unlock => exact h.release hid ht (by rw [hpc]; exact Or.inr rfl)

theorem inv_of_reachable (hid : IdsOk n id) (hs : (machine n id).Reachable s) : Inv n id s := by
  refine (machine n id).invariant (Inv n id) ?_ (fun s t s' h hstep => ?_) hs
  · refine ⟨fun t _ hc => ?_, fun t ht hc => absurd hc.symm (hid.ne_empty t ht)⟩
    rcases hc with hc | hc <;> cases hc
  · simp only [machine] at hstep
    split at hstep
    · rename_i ht
      cases hstep
      exact inv_step hid h ht
    · cases hstep

end

/-! ## The ids of `mvcc.cpp` -/

/-- `int` arithmetic that wraps around. -/
def toInt32 (x : Int) : Int := (x + 2 ^ 31) % 2 ^ 32 - 2 ^ 31

/-- `thread_id` of the update threads, and of `GC` as the last one. -/
def mvccId (numThreads t : Nat) : Int := if t < numThreads then t else toInt32 (numThreads + 100)

theorem mvccId_ok {numThreads : Nat} (h : numThreads < 2 ^ 31) :
    IdsOk (numThreads + 1) (mvccId numThreads) := by
  constructor
  · intro t _
    unfold mvccId toInt32 EMPTY
    split <;> omega
  · intro t ht u hu heq
    unfold mvccId toInt32 at heq
    split at heq <;> split at heq <;> omega

/-! ## Mutual exclusion -/

/-- At most one thread is between the return of `Lock` and the completion of `Unlock`.  While it is,
its id is on the throne; and when an id is there, its thread is inside, or has put it there and is
about to read it.  The ids of `mvcc.cpp` are as it needs them for every `int` number of threads. -/
theorem throne_exclusive :
    (∀ (n : Nat) (id : Nat → Int), IdsOk n id → ∀ s, (machine n id).Reachable s →
      (∀ t < n, ∀ u < n, (s.pc t).Inside → (s.pc u).Inside → t = u) ∧
      (∀ t < n, (s.pc t).Inside → s.throne = id t) ∧
      ∀ t < n, s.throne = id t → (s.pc t).Inside ∨ (s.pc t).AtRead) ∧
    ∀ numThreads < 2 ^ 31, IdsOk (numThreads + 1) (mvccId numThreads) := by
  refine ⟨fun n id hid s hs => ?_, fun g hg => mvccId_ok hg⟩
  have h := inv_of_reachable hid hs
  refine ⟨fun t ht u hu h1 h2 => ?_, h.inside, h.owner⟩
  exact hid.inj t ht u hu ((h.inside t ht h1).symm.trans (h.inside u hu h2))

/-- Thread 0 of two threads and `GC` is inside, and `GC` waits. -/
theorem throne_exclusive_two : ∃ s, (machine 3 (mvccId 2)).run [0, 2, 0, 0, 2, 2] = some s ∧
    (s.pc 0).Inside ∧ s.throne = mvccId 2 0 ∧ ∀ u < 3, (s.pc u).Inside → u = 0 := by
  have hs : (((machine 3 (mvccId 2)).run [0, 2, 0, 0, 2, 2]).any fun s =>
      decide (s.pc 0).Inside) = true := by decide
  obtain ⟨s, hrun, hp⟩ := (Option.any_eq_true _ _).mp hs
  have hin : (s.pc 0).Inside := of_decide_eq_true hp
  have hids := throne_exclusive.2 2 (by decide)
  obtain ⟨hone, hthrone, _⟩ := throne_exclusive.1 3 (mvccId 2) hids s ⟨_, hrun⟩
  exact ⟨s, hrun, hin, hthrone 0 (by decide) hin, fun u hu h => hone u hu 0 (by decide) h hin⟩

/-- The throne is taken before `Lock` returns: after the compare-and-swap of the only thread its id
is there, and `Lock` is still to read it. -/
theorem throne_taken_before_return : IdsOk 1 (fun t => t) ∧
    ∃ s, (machine 1 fun t => t).run [0, 0] = some s ∧ s.throne = 0 ∧ ¬(s.pc 0).Inside := by
  refine ⟨⟨fun t _ => ?_, fun t _ u _ h => by omega⟩, ?_⟩
  · unfold EMPTY
    omega
  · have hs : (((machine 1 fun t => t).run [0, 0]).any fun s =>
        decide (s.throne = 0 ∧ ¬(s.pc 0).Inside)) = true := by decide
    obtain ⟨s, hrun, hp⟩ := (Option.any_eq_true _ _).mp hs
    exact ⟨s, hrun, of_decide_eq_true hp⟩

end MulticorePrac.MyMutex
