import MulticorePrac.Lib.Threads

/-!
# Project1: the pool of vectors (`util.cpp`)

`Alloc` takes the first vector of `free_vector_list_`, or makes a new one if the list is
empty; `Free` puts a vector at the end of the list.  The list is changed under `mutex_`,
but `Alloc` tests it for emptiness before it takes the mutex.

Two threads that find the last vector there both go on to take it, and the second one
takes the front of an empty list (`front_of_empty`).  The pool is right in the runs in
which every thread that goes on finds a vector of its own (`Covered`).
-/

namespace MulticorePrac.VectorPool

/-- Where a thread is: `test`, `create`, `lock`, `front`, `pop` are steps of `Alloc`, `freeLock` and
`push` of `Free`, and `unlock` of both.  `broken` is after `front` or `pop_front` of an empty
list. -/
inductive Pc
  | outside
  | test
  | create
  | lock
  | front
  | pop (ret : Nat)
  | freeLock (vec : Nat)
  | push (vec : Nat)
  | unlock
  | broken
  deriving DecidableEq, Repr

/-- A thread, and the vectors it has got and not given back. -/
structure Thread where
  pc : Pc
  held : List Nat
  deriving DecidableEq, Repr

/-- The vectors are numbered in the order of their creation. -/
structure St where
  freeVectorList : List Nat
  mutex : Option Nat
  created : Nat
  thread : Nat → Thread

inductive Act
  | alloc (t : Nat)
  | free (t : Nat) (vec : Nat)
  | run (t : Nat)
  deriving DecidableEq, Repr

def St.setThread (s : St) (t : Nat) (l : Thread) : St :=
  { s with thread := Function.update s.thread t l }

def St.goto (s : St) (t : Nat) (pc : Pc) : St := s.setThread t ⟨pc, (s.thread t).held⟩

/-- The next step of thread `t` in `Alloc` or `Free`. -/
def runStep (s : St) (t : Nat) : Option St :=
  let held := (s.thread t).held
  match (s.thread t).pc with
  | .outside => none
  | .test => some (s.goto t (if s.freeVectorList = [] then .create else .lock))
  | .create =>
    some { s.setThread t ⟨.outside, s.created :: held⟩ with created := s.created + 1 }
  | .lock =>
    match s.mutex with
    | none => some { s.goto t .front with mutex := some t }
    | some _ => none
  | .front =>
    match s.freeVectorList with
    | [] => some (s.goto t .broken)
    | ret :: _ => some (s.goto t (.pop ret))
  | .pop ret =>
    match s.freeVectorList with
    | [] => some (s.goto t .broken)
    | _ :: rest => some { s.setThread t ⟨.unlock, ret :: held⟩ with freeVectorList := rest }
  | .freeLock vec =>
    match s.mutex with
    | none => some { s.goto t (.push vec) with mutex := some t }
    | some _ => none
  | .push vec =>
    some { s.setThread t ⟨.unlock, held.erase vec⟩ with
      freeVectorList := s.freeVectorList ++ [vec] }
  | .unlock => some { s.goto t .outside with mutex := none }
  | .broken => none

/-- A thread outside may call `Alloc`, and `Free` for a vector that it holds. -/
def step (n : Nat) (s : St) : Act → Option St
  | .alloc t => if t < n ∧ (s.thread t).pc = .outside then some (s.goto t .test) else none
  | .free t vec =>
    if t < n ∧ (s.thread t).pc = .outside ∧ vec ∈ (s.thread t).held then
      some (s.goto t (.freeLock vec))
    else none
  | .run t => if t < n then runStep s t else none

def machine (n : Nat) : Machine St Act where
  init := ⟨[], none, 0, fun _ => ⟨.outside, []⟩⟩
  step := step n

/-! ## Who has the vectors -/

/-- How often a vector is on the free list or held by a caller. -/
def copies (n : Nat) (s : St) (vec : Nat) : Nat :=
  s.freeVectorList.count vec + ∑ t ∈ Finset.range n, (s.thread t).held.count vec

/-- No caller has taken the front of an empty list, no vector is held by two callers, and every
vector that was created is held by one caller or on the free list, and that once. -/
structure Sound (n : Nat) (s : St) : Prop where
  front : ∀ t < n, (s.thread t).pc ≠ .broken
  one : ∀ t < n, ∀ u < n, ∀ vec, vec ∈ (s.thread t).held → vec ∈ (s.thread u).held → t = u
  kept : ∀ vec < s.created, copies n s vec = 1

/-- The thread has found the list not empty and has not taken its vector yet. -/
def Thread.pending (l : Thread) : Bool :=
  match l.pc with
  | .lock | .front | .pop _ => true
  | _ => false

/-- A thread that tests the list and goes on to take a vector finds more of them than other threads
are about to take. -/
def Covered (n : Nat) (s : St) : Act → Prop
  | .run t => (s.thread t).pc = .test → s.freeVectorList ≠ [] →
      tally Thread.pending s.thread n < s.freeVectorList.length
  | _ => True

instance (n : Nat) (s : St) : ∀ a, Decidable (Covered n s a)
  | .run _ => inferInstanceAs (Decidable (_ → _ → _))
  | .alloc _ => isTrue trivial
  | .free _ _ => isTrue trivial

/-- The thread has the mutex. -/
def Thread.inside (l : Thread) : Prop :=
  match l.pc with
  | .front | .pop _ | .push _ | .unlock | .broken => True
  | _ => False

/-- What a thread relies on where it is. -/
def Relies (list : List Nat) (l : Thread) : Prop :=
  match l.pc with
  | .pop ret => list.head? = some ret
  | .freeLock vec | .push vec => vec ∈ l.held
  | .broken => False
  | _ => True

/-- How often the pool has a vector: once, from its creation on. -/
def born (created vec : Nat) : Nat := if vec < created then 1 else 0

structure Inv (n : Nat) (s : St) : Prop where
  guarded : Guarded Thread.inside s.mutex s.thread
  covered : tally Thread.pending s.thread n ≤ s.freeVectorList.length
  relies : ∀ t, Relies s.freeVectorList (s.thread t)
  copies : ∀ vec, copies n s vec = born s.created vec

section
variable {n : Nat} {s s' : St} {t : Nat}

/-- Only the thread with the mutex relies on the list. -/
theorem Relies.outside {list list' : List Nat} {l : Thread} (h : Relies list l)
    (hout : ¬l.inside) : Relies list' l := by
  obtain ⟨pc, held⟩ := l
  cases pc with
  | pop ret => exact absurd trivial hout
  | _ => exact h

/-- A step of thread `t`: what it has to see to. -/
theorem Inv.update (h : Inv n s) (ht : t < n) {l : Thread} {list : List Nat}
    {mutex : Option Nat} {created : Nat}
    (hguard : Guarded Thread.inside mutex (Function.update s.thread t l))
    (hpend : tally Thread.pending s.thread n + l.pending.toNat ≤
      list.length + (s.thread t).pending.toNat)
    (hrel : Relies list l) (hother : ∀ u, u ≠ t → Relies list (s.thread u))
    (hcopies : ∀ vec, list.count vec + l.held.count vec + born s.created vec =
      s.freeVectorList.count vec + (s.thread t).held.count vec + born created vec) :
    Inv n ⟨list, mutex, created, Function.update s.thread t l⟩ where
  guarded := hguard
  covered := by
    have := tally_update Thread.pending s.thread ht l
    show tally Thread.pending (Function.update s.thread t l) n ≤ list.length
    omega
  relies := forall_update (P := fun _ l => Relies list l) hrel hother
  copies := fun vec => by
    have hsum := Machine.sum_update (fun l : Thread => l.held.count vec) s.thread ht l
    have hc := h.copies vec
    have hvec := hcopies vec
    unfold VectorPool.copies at hc ⊢
    show list.count vec +
      ∑ u ∈ Finset.range n, (Function.update s.thread t l u).held.count vec = _
    dsimp only at hsum ⊢
    omega

/-- A step that changes the place of a thread, and the mutex. -/
theorem Inv.goto (h : Inv n s) (ht : t < n) {pc : Pc} {mutex : Option Nat}
    (hguard : Guarded Thread.inside mutex (s.goto t pc).thread)
    (hpend : tally Thread.pending s.thread n + (Thread.pending ⟨pc, (s.thread t).held⟩).toNat ≤
      s.freeVectorList.length + (s.thread t).pending.toNat)
    (hrel : Relies s.freeVectorList ⟨pc, (s.thread t).held⟩) :
    Inv n { s.goto t pc with mutex := mutex } :=
  h.update ht hguard hpend hrel (fun u _ => h.relies u) fun _ => rfl

/-- The other threads do not rely on the list while thread `t` has the mutex. -/
theorem Inv.relies_other (h : Inv n s) (ht : (s.thread t).inside) (list : List Nat) (u : Nat)
    (hu : u ≠ t) : Relies list (s.thread u) :=
  (h.relies u).outside fun hc => hu (h.guarded.inj hc ht)

theorem inv_create (h : Inv n s) (ht : t < n) (hpc : (s.thread t).pc = .create) :
    Inv n { s.setThread t ⟨.outside, s.created :: (s.thread t).held⟩ with
      created := s.created + 1 } := by
  have hle := h.covered
  refine h.update ht (h.guarded.keep ?_) ?_ trivial (fun u _ => h.relies u) fun vec => ?_
  · simp [Thread.inside, hpc]
  · simpa [St.setThread, Thread.pending, hpc] using hle
  · dsimp only [St.setThread]
    unfold born
    rw [List.count_cons]
    by_cases hv : s.created = vec
    · subst hv
      simp [Nat.add_assoc]
    · have hlt : vec < s.created + 1 ↔ vec < s.created := by omega
      simp [hv, hlt]

theorem inv_pop (h : Inv n s) (ht : t < n) {ret : Nat} {rest : List Nat}
    (hpc : (s.thread t).pc = .pop ret) (hlist : s.freeVectorList = ret :: rest) :
    Inv n { s.setThread t ⟨.unlock, ret :: (s.thread t).held⟩ with freeVectorList := rest } := by
  have hin : (s.thread t).inside := by simp [Thread.inside, hpc]
  have hle := h.covered
  rw [hlist, List.length_cons] at hle
  refine h.update ht (h.guarded.keep ?_) ?_ trivial (h.relies_other hin _) fun vec => ?_
  · simp [Thread.inside, hpc]
  · -- the thread is no longer pending, and the list is shorter by one
    simpa [Thread.pending, hpc] using hle
  · dsimp only [St.setThread]
    rw [hlist, List.count_cons, List.count_cons]
    omega

theorem inv_push (h : Inv n s) (ht : t < n) {vec : Nat} (hpc : (s.thread t).pc = .push vec) :
    Inv n { s.setThread t ⟨.unlock, (s.thread t).held.erase vec⟩ with
      freeVectorList := s.freeVectorList ++ [vec] } := by
  have hin : (s.thread t).inside := by simp [Thread.inside, hpc]
  have hheld : vec ∈ (s.thread t).held := by
    have hrel := h.relies t
    unfold Relies at hrel
    rw [hpc] at hrel
    exact hrel
  have hle := h.covered
  refine h.update ht (h.guarded.keep ?_) ?_ trivial (h.relies_other hin _) fun v => ?_
  · simp [Thread.inside, hpc]
  · rw [List.length_append]
    show tally Thread.pending s.thread n + 0 ≤ _
    omega
  · have hpos := List.count_pos_iff.mpr hheld
    dsimp only [St.setThread]
    rw [List.count_append, List.count_singleton, List.count_erase]
    by_cases hv : vec = v
    · subst hv
      simp only [beq_self_eq_true, if_true]
      omega
    · simp only [beq_iff_eq, hv, if_false]
      omega

/-- A thread that is about to take a vector finds one. -/
theorem Inv.list_ne_nil (h : Inv n s) (ht : t < n) (hp : (s.thread t).pending = true) :
    s.freeVectorList ≠ [] := by
  intro hnil
  have hcov := h.covered
  rw [hnil] at hcov
  have hzero := tally_eq_zero.mp (Nat.le_zero.mp hcov) t ht
  rw [hp] at hzero
  cases hzero

theorem inv_runStep (h : Inv n s) (ht : t < n) (hcov : Covered n s (.run t))
    (hs : runStep s t = some s') : Inv n s' := by
  have hrel := h.relies t
  have hle := h.covered
  unfold Relies at hrel
  unfold runStep at hs
  cases hpc : (s.thread t).pc with
  | outside => simp only [hpc] at hs; cases hs
  | test =>
    simp only [hpc] at hs
    have hold : (s.thread t).pending = false := by simp [Thread.pending, hpc]
    by_cases hnil : s.freeVectorList = []
    · rw [if_pos hnil] at hs
      cases hs
      refine h.goto ht (h.guarded.keep ?_) ?_ trivial
      · simp [Thread.inside, hpc]
      · rw [hold]; exact hle
    · rw [if_neg hnil] at hs
      cases hs
      have hroom := hcov hpc hnil
      refine h.goto ht (h.guarded.keep ?_) ?_ trivial
      · simp [Thread.inside, hpc]
      · rw [hold]; exact hroom
  | create =>
    simp only [hpc] at hs
    cases hs
    exact inv_create h ht hpc
  | lock =>
    simp only [hpc] at hs
    have hold : (s.thread t).pending = true := by simp [Thread.pending, hpc]
    have hguard := h.guarded
    cases hm : s.mutex with
    | none =>
      rw [hm] at hs hguard
      cases hs
      refine h.goto ht (hguard.lock trivial) ?_ trivial
      rw [hold]
      exact Nat.add_le_add_right hle 1
    | some u => rw [hm] at hs; cases hs
  | front =>
    simp only [hpc] at hs
    have hold : (s.thread t).pending = true := by simp [Thread.pending, hpc]
    cases hl : s.freeVectorList with
    | nil => exact absurd hl (h.list_ne_nil ht hold)
    | cons ret rest =>
      rw [hl] at hs
      cases hs
      refine h.goto ht (h.guarded.keep ?_) ?_ ?_
      · simp [Thread.inside, hpc]
      · rw [hold]
        exact Nat.add_le_add_right hle 1
      · rw [hl]
        rfl
  | pop ret =>
    simp only [hpc] at hs hrel
    cases hl : s.freeVectorList with
    | nil => rw [hl] at hrel; cases hrel
    | cons v rest =>
      rw [hl] at hs hrel
      cases hs
      have hv : v = ret := Option.some.inj hrel
      exact inv_pop h ht hpc (hv ▸ hl)
  | freeLock vec =>
    simp only [hpc] at hs hrel
    have hold : (s.thread t).pending = false := by simp [Thread.pending, hpc]
    have hguard := h.guarded
    cases hm : s.mutex with
    | none =>
      rw [hm] at hs hguard
      cases hs
      refine h.goto ht (hguard.lock trivial) ?_ hrel
      rw [hold]
      exact hle
    | some u => rw [hm] at hs; cases hs
  | push vec =>
    simp only [hpc] at hs
    cases hs
    exact inv_push h ht hpc
  | unlock =>
    simp only [hpc] at hs
    cases hs
    have hold : (s.thread t).pending = false := by simp [Thread.pending, hpc]
    refine h.goto ht (h.guarded.unlock ?_ ?_) ?_ trivial
    · simp [Thread.inside, hpc]
    · simp [Thread.inside]
    · rw [hold]
      exact hle
  | broken => simp only [hpc] at hs; cases hs

theorem inv_step {a : Act} (h : Inv n s) (hcov : Covered n s a) (hs : step n s a = some s') :
    Inv n s' := by
  have hle := h.covered
  cases a with
  | alloc t =>
    simp only [step] at hs
    split at hs
    · rename_i hc
      obtain ⟨ht, hpc⟩ := hc
      cases hs
      refine h.goto ht (h.guarded.keep ?_) ?_ trivial
      · simp [Thread.inside, hpc]
      · simpa [Thread.pending, hpc] using hle
    · cases hs
  | free t vec =>
    simp only [step] at hs
    split at hs
    · rename_i hc
      obtain ⟨ht, hpc, hheld⟩ := hc
      cases hs
      refine h.goto ht (h.guarded.keep ?_) ?_ hheld
      · simp [Thread.inside, hpc]
      · simpa [Thread.pending, hpc] using hle
    · cases hs
  | run t =>
    simp only [step] at hs
    split at hs
    · rename_i ht
      exact inv_runStep h ht hcov hs
    · cases hs

theorem Inv.sound (h : Inv n s) : Sound n s := by
  refine ⟨fun t _ hpc => ?_, fun t ht u hu vec hvt hvu => ?_, fun vec hvec => ?_⟩
  · have hrel := h.relies t
    unfold Relies at hrel
    rw [hpc] at hrel
    exact hrel
  · -- two holders would be two copies
    by_contra hne
    have hc := h.copies vec
    unfold VectorPool.copies at hc
    have hpair : (s.thread t).held.count vec + (s.thread u).held.count vec ≤
        ∑ t ∈ Finset.range n, (s.thread t).held.count vec := by
      rw [← Finset.sum_pair (f := fun t => (s.thread t).held.count vec) hne]
      apply Finset.sum_le_sum_of_subset
      intro x hx
      rw [Finset.mem_insert, Finset.mem_singleton] at hx
      rw [Finset.mem_range]
      rcases hx with rfl | rfl <;> assumption
    have h1 := List.count_pos_iff.mpr hvt
    have h2 := List.count_pos_iff.mpr hvu
    unfold born at hc
    split at hc <;> omega
  · rw [h.copies vec]
    exact if_pos hvec

end

theorem inv_initial (n : Nat) : Inv n (machine n).init := by
  refine ⟨fun t => ?_, ?_, fun t => trivial, fun vec => ?_⟩
  · simp [machine, Thread.inside]
  · rw [tally_eq_zero.mpr fun _ _ => rfl]
    exact Nat.zero_le _
  · simp [copies, machine, born]

/-- In a run in which every thread that goes on to take a vector from the list finds one that no
other thread is about to take, the pool stays sound. -/
theorem pool_sound {n : Nat} {as : List Act} {s : St}
    (hcov : (machine n).AllSteps (Covered n) (machine n).init as)
    (hs : (machine n).run as = some s) : Sound n s :=
  ((machine n).invariantOn (Covered n) (Inv n) (inv_initial n)
    (fun _ _ _ h hp => inv_step h hp) hcov hs).sound

/-- Thread 0 gets two vectors and gives them back; then threads 0 and 1 get them at once. -/
def sharedRun : List Act :=
  [.alloc 0, .run 0, .run 0, .alloc 0, .run 0, .run 0, .free 0 0, .run 0, .run 0, .run 0,
    .free 0 1, .run 0, .run 0, .run 0, .alloc 0, .alloc 1, .run 0, .run 1, .run 0, .run 0, .run 0,
    .run 0, .run 1, .run 1, .run 1, .run 1]

theorem pool_sound_sharedRun : (machine 2).AllSteps (Covered 2) (machine 2).init sharedRun ∧
    ∃ s, (machine 2).run sharedRun = some s ∧ (s.thread 0).held = [0] ∧ (s.thread 1).held = [1] ∧
      Sound 2 s := by
  have hcov : (machine 2).AllSteps (Covered 2) (machine 2).init sharedRun := by decide +kernel
  have hs : (((machine 2).run sharedRun).any fun s =>
      decide ((s.thread 0).held = [0] ∧ (s.thread 1).held = [1])) = true := by decide +kernel
  obtain ⟨s, hrun, hp⟩ := (Option.any_eq_true _ _).mp hs
  obtain ⟨h0, h1⟩ := of_decide_eq_true hp
  exact ⟨hcov, s, hrun, h0, h1, pool_sound hcov hrun⟩

/-- One vector is on the list; threads 0 and 1 both find the list not empty, and thread 1 takes the
front of the empty list. -/
theorem front_of_empty : ∃ s, (machine 2).run
    [.alloc 0, .run 0, .run 0, .free 0 0, .run 0, .run 0, .run 0, .alloc 0, .alloc 1, .run 0,
      .run 1, .run 0, .run 0, .run 0, .run 0, .run 1, .run 1] = some s ∧
    (s.thread 1).pc = .broken ∧ ¬Sound 2 s := by
  have hs : (((machine 2).run
      [.alloc 0, .run 0, .run 0, .free 0 0, .run 0, .run 0, .run 0, .alloc 0, .alloc 1, .run 0,
        .run 1, .run 0, .run 0, .run 0, .run 0, .run 1, .run 1]).any fun s =>
      decide ((s.thread 1).pc = .broken)) = true := by decide +kernel
  obtain ⟨s, hrun, hp⟩ := (Option.any_eq_true _ _).mp hs
  have hbroken := of_decide_eq_true hp
  exact ⟨s, hrun, hbroken, fun h => h.front 1 (by decide) hbroken⟩

end MulticorePrac.VectorPool
