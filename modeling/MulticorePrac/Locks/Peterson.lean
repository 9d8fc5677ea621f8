import MulticorePrac.Lib.Threads
import MulticorePrac.Lib.Tso

/-!
# Lab3: the two-thread lock (`lock.cpp`)

`Lock` raises the thread's flag, passes a fence, makes the thread the victim and then
waits while the other flag is up and the thread is still the victim.  There is no fence
after the store of `g_victim` (it is commented out), so on x86 this store can be in the
thread's store buffer while the thread already reads the other flag.  `FeedMyPet` adds 1
to `g_sum` in `k` rounds of `Lock` and `Unlock`; the load and the store of `g_sum++` are
steps of their own.

If the buffered store of `g_victim` reaches the memory after that of the other thread,
that thread is no longer the victim and both are inside (`both_inside`).  If every thread
finds its buffer empty when it reads the other flag, as behind a fence, the lock is
right (`lock_right`).
-/

namespace MulticorePrac.Peterson

/-- The shared variables. -/
inductive Var
  | flag (id : Bool)
  | victim
  | sum
  deriving DecidableEq, Repr

/-- The value of a thread's id in `g_victim`. -/
def num (id : Bool) : Int := if id then 1 else 0

/-- Where a thread is: `top` is the test of the `for` loop, `readFlag` and `readVictim` are the two
halves of the `while` condition. -/
inductive Pc
  | top
  | setFlag
  | fence
  | setVictim
  | readFlag
  | readVictim
  | loadSum
  | storeSum (r : Int)
  | unlock
  | done
  deriving DecidableEq, Repr

structure Thread where
  pc : Pc
  i : Nat
  deriving DecidableEq, Repr

structure St where
  store : Tso.Store Bool Var Int
  thread : Bool → Thread

inductive Act
  | run (id : Bool)
  | flush (id : Bool)
  deriving DecidableEq, Repr

def St.goto (s : St) (id : Bool) (pc : Pc) : St :=
  { s with thread := Function.update s.thread id { s.thread id with pc := pc } }

def St.put (s : St) (id : Bool) (x : Var) (v : Int) : St := { s with store := s.store.push id x v }

/-- `g_sum + 1` as an `int`. -/
def incr (r : Int) : Int := Int.bmod (r + 1) (2 ^ 32)

/-- The next step of a thread in `FeedMyPet`. -/
def threadStep (k : Nat) (s : St) (id : Bool) : Option St :=
  match (s.thread id).pc with
  | .top => some (s.goto id (if (s.thread id).i < k then .setFlag else .done))
  | .setFlag => some ((s.put id (.flag id) 1).goto id .fence)
  | .fence => if s.store.buf id = [] then some (s.goto id .setVictim) else none
  | .setVictim => some ((s.put id .victim (num id)).goto id .readFlag)
  | .readFlag => some (s.goto id (if s.store.load id (.flag !id) = 0 then .loadSum else .readVictim))
  | .readVictim => some (s.goto id (if s.store.load id .victim = num id then .readFlag else .loadSum))
  | .loadSum => some (s.goto id (.storeSum (s.store.load id .sum)))
  | .storeSum r => some ((s.put id .sum (incr r)).goto id .unlock)
  | .unlock => some { s.put id (.flag id) 0 with
      thread := Function.update s.thread id ⟨.top, (s.thread id).i + 1⟩ }
  | .done => none

def step (k : Nat) (s : St) : Act → Option St
  | .run id => threadStep k s id
  | .flush id => (s.store.flush id).map fun m => { s with store := m }

/-- Two threads with `k` rounds each, after `InitLock`. -/
def machine (k : Nat) : Machine St Act where
  init := ⟨⟨fun _ => 0, fun _ => []⟩, fun _ => ⟨.top, 0⟩⟩
  step := step k

/-- Between the return of `Lock` and the call of `Unlock`. -/
def Pc.inside : Pc → Bool
  | .loadSum => true
  | .storeSum _ => true
  | .unlock => true
  | _ => false

/-- Both threads have left their loops and all stores are in the memory. -/
def Finished (s : St) : Prop := ∀ id, (s.thread id).pc = .done ∧ s.store.buf id = []

instance (s : St) : Decidable (Finished s) := inferInstanceAs (Decidable (∀ _, _ ∧ _))

/-- A thread that is about to read the other flag has no store in its buffer. -/
def Drained (s : St) (a : Act) : Prop :=
  ∀ id, a = .run id → (s.thread id).pc = .readFlag → s.store.buf id = []

instance (s : St) (a : Act) : Decidable (Drained s a) :=
  inferInstanceAs (Decidable (∀ id, a = .run id → _ → _))

/-! ## One thread -/

/-- The flag of a thread is up from the fence to the store of `Unlock`. -/
def Pc.raised : Pc → Bool
  | .setVictim => true
  | .readFlag => true
  | .readVictim => true
  | pc => pc.inside

/-- The stores that a thread can have in its buffer, of which the oldest may have left it; `v` is
what it last stored in `g_sum`. -/
def pending (id : Bool) (v : Int) : Pc → List (Var × Int)
  | .top => [(.sum, v), (.flag id, 0)]
  | .setFlag => [(.sum, v), (.flag id, 0)]
  | .done => [(.sum, v), (.flag id, 0)]
  | .fence => [(.sum, v), (.flag id, 0), (.flag id, 1)]
  | .readFlag => [(.victim, num id)]
  | .unlock => [(.sum, v)]
  | _ => []

/-- The thread's own variables: its buffer, its flag in the memory and its round. -/
structure Local (k : Nat) (id : Bool) (th : Thread) (b : List (Var × Int)) (flag : Int) : Prop where
  buffer : ∃ v, b <:+ pending id v th.pc
  raised : th.pc.raised = true ∨ (.flag id, 0) ∈ b → flag = 1
  fenced : th.pc = .fence → b = [] → flag = 1
  round : th.i ≤ k ∧ (th.pc = .top ∨ th.pc = .done ∨ th.i < k) ∧ (th.pc = .done → th.i = k)

/-- Thread `id` is inside, or its flag has not come down in the memory. -/
def Holds (s : St) (id : Bool) : Prop :=
  (s.thread id).pc.inside = true ∨ (.flag id, 0) ∈ s.store.buf id

/-- In the `while` loop of `Lock`. -/
def Pc.waiting : Pc → Bool
  | .readFlag => true
  | .readVictim => true
  | _ => false

/-- Thread `id` waits, and its store to `g_victim` is in the memory. -/
def Waits (s : St) (id : Bool) : Prop := (s.thread id).pc.waiting = true ∧ s.store.buf id = []

def fed (th : Thread) : Nat := th.i + if th.pc = .unlock then 1 else 0

/-- The value that `g_sum` should have, over all stores that were made. -/
def total (s : St) : Int := Int.bmod (fed (s.thread false) + fed (s.thread true)) (2 ^ 32)

structure Inv (k : Nat) (s : St) : Prop where
  local_ : ∀ id, Local k id (s.thread id) (s.store.buf id) (s.store.mem (.flag id))
  victim : ∃ id, s.store.mem .victim = num id
  excl : ∀ id, Holds s id → ¬Holds s (!id) ∧ (Waits s (!id) → s.store.mem .victim = num !id)
  stored : ∀ id v, (.sum, v) ∈ s.store.buf id → Holds s id ∧ v = total s
  settled : (∀ id v, (.sum, v) ∉ s.store.buf id) → s.store.mem .sum = total s
  loaded : ∀ id r, (s.thread id).pc = .storeSum r → r = total s

section
variable {k : Nat} {s s' : St} {id : Bool}

theorem Pc.raised_of_inside {pc : Pc} (h : pc.inside = true) : pc.raised = true := by
  cases pc with
  | loadSum => rfl
  | storeSum r => rfl
  | unlock => rfl
  | _ => cases h

theorem Pc.raised_of_waiting {pc : Pc} (h : pc.waiting = true) :
    pc.raised = true ∧ pc ≠ .unlock := by
  cases pc with
  | readFlag => exact ⟨rfl, fun hc => by cases hc⟩
  | readVictim => exact ⟨rfl, fun hc => by cases hc⟩
  | _ => cases h

theorem total_congr (h : fed (s'.thread id) = fed (s.thread id))
    (h' : s'.thread (!id) = s.thread !id) : total s' = total s := by
  unfold total
  cases id
  · rw [h, show s'.thread true = s.thread true from h']
  · rw [h, show s'.thread false = s.thread false from h']

/-- What a step of thread `id` leaves alone. -/
structure Moves (s s' : St) (id : Bool) : Prop where
  mem : s'.store.mem = s.store.mem
  thread : s'.thread (!id) = s.thread !id
  buf : s'.store.buf (!id) = s.store.buf !id

theorem Moves.holds (h : Moves s s' id) : Holds s' (!id) ↔ Holds s !id := by
  unfold Holds
  rw [h.thread, h.buf]

theorem Moves.waits (h : Moves s s' id) : Waits s' (!id) ↔ Waits s !id := by
  unfold Waits
  rw [h.thread, h.buf]

/-- A thread may come to hold the lock if the other one does not, and is the victim if it waits. -/
def MayEnter (s : St) (id : Bool) : Prop :=
  ¬Holds s (!id) ∧ (Waits s (!id) → s.store.mem .victim = num !id)

/-- A step of thread `id` that does not store to `g_sum`. -/
theorem Inv.move (h : Inv k s) (hm : Moves s s' id)
    (hlocal : Local k id (s'.thread id) (s'.store.buf id) (s.store.mem (.flag id)))
    (hkeep : Holds s id → Holds s' id) (henter : Holds s' id → Holds s id ∨ MayEnter s id)
    (hwait : Waits s' id → Waits s id) (hfed : fed (s'.thread id) = fed (s.thread id))
    (hsum : ∀ v, (.sum, v) ∈ s'.store.buf id ↔ (.sum, v) ∈ s.store.buf id)
    (hload : ∀ r, (s'.thread id).pc = .storeSum r → r = total s) : Inv k s' := by
  have htotal := total_congr hfed hm.thread
  have hin : ∀ x v, (.sum, v) ∈ s'.store.buf x ↔ (.sum, v) ∈ s.store.buf x :=
    forall_two id hsum (by rw [hm.buf]; exact fun _ => Iff.rfl)
  refine ⟨forall_two id ?_ ?_, ?_, forall_two id (fun hh => ?_) (fun hh => ?_), forall_two id ?_ ?_, ?_,
    forall_two id ?_ ?_⟩
  · rw [hm.mem]; exact hlocal
  · rw [hm.mem, hm.thread, hm.buf]; exact h.local_ !id
  · rw [hm.mem]; exact h.victim
  · rw [hm.holds, hm.waits, hm.mem]
    rcases henter hh with hold | hmay
    · exact h.excl id hold
    · exact hmay
  · -- the other thread holds the lock: this one did not get it
    have hold := hm.holds.mp hh
    have hother := h.excl (!id) hold
    rw [Bool.not_not] at hother ⊢
    rw [hm.mem]
    refine ⟨fun hn => ?_, fun hw => hother.2 (hwait hw)⟩
    rcases henter hn with hid | hmay
    · exact hother.1 hid
    · exact hmay.1 hold
  · intro v hv
    rw [htotal]
    obtain ⟨h1, h2⟩ := h.stored id v ((hin id v).mp hv)
    exact ⟨hkeep h1, h2⟩
  · intro v hv
    rw [htotal, hm.holds]
    exact h.stored (!id) v ((hin _ v).mp hv)
  · intro hno
    rw [hm.mem, htotal]
    exact h.settled fun x v hv => hno x v ((hin x v).mpr hv)
  · rw [htotal]; exact hload
  · rw [htotal, hm.thread]; exact h.loaded !id

theorem goto_moves {pc : Pc} : Moves s (s.goto id pc) id :=
  ⟨rfl, Function.update_of_ne (Bool.not_ne_self id) .., rfl⟩

theorem goto_thread {pc : Pc} : (s.goto id pc).thread id = { s.thread id with pc := pc } :=
  Function.update_self ..

theorem put_moves {pc : Pc} {x : Var} {v : Int} : Moves s ((s.put id x v).goto id pc) id :=
  ⟨rfl, Function.update_of_ne (Bool.not_ne_self id) ..,
    Tso.Store.push_other (Bool.not_ne_self id)⟩

/-- In the memory the flag of a thread that holds the lock or waits is up. -/
theorem Inv.flag_of_holds (h : Inv k s) (hh : Holds s id) : s.store.mem (.flag id) = 1 := by
  exact (h.local_ id).raised (hh.imp_left Pc.raised_of_inside)

theorem Inv.flag_of_waits (h : Inv k s) (hw : Waits s id) : s.store.mem (.flag id) = 1 := by
  exact (h.local_ id).raised (Or.inl (Pc.raised_of_waiting hw.1).1)

/-- With the other flag down nobody else is near the lock. -/
theorem Inv.mayEnter_of_flag (h : Inv k s) (hf : s.store.mem (.flag !id) = 0) : MayEnter s id := by
  constructor
  · intro hh
    rw [h.flag_of_holds hh] at hf
    cases hf
  · intro hw
    rw [h.flag_of_waits hw] at hf
    cases hf

/-- A waiting thread that is not the victim may enter. -/
theorem Inv.mayEnter_of_victim (h : Inv k s) (hw : Waits s id)
    (hv : s.store.mem .victim ≠ num id) : MayEnter s id := by
  refine ⟨fun hh => ?_, fun _ => ?_⟩
  · have hvic := (h.excl (!id) hh).2
    rw [Bool.not_not] at hvic
    exact hv (hvic hw)
  · obtain ⟨x, hx⟩ := h.victim
    rw [hx] at hv ⊢
    cases x <;> cases id <;> first | rfl | exact absurd rfl hv

/-! ## The steps of a thread -/

/-- A step from `old` to `pc` that does not leave the lock, begin to wait or touch `g_sum`. -/
def Quiet (old pc : Pc) : Prop :=
  (old.inside = true → pc.inside = true) ∧ (pc.waiting = true → old.waiting = true) ∧
    old ≠ .unlock ∧ pc ≠ .unlock ∧ pc ≠ .fence

instance (old pc : Pc) : Decidable (Quiet old pc) := inferInstanceAs (Decidable (_ ∧ _))

theorem Inv.goto (h : Inv k s) {old pc : Pc} (hold : (s.thread id).pc = old) (hq : Quiet old pc)
    (hbuf : ∃ v, s.store.buf id <:+ pending id v pc)
    (hraised : pc.raised = true → s.store.mem (.flag id) = 1)
    (hround : (pc = .top ∨ pc = .done ∨ (s.thread id).i < k) ∧ (pc = .done → (s.thread id).i = k))
    (hin : pc.inside = true → old.inside = true ∨ MayEnter s id)
    (hload : ∀ r, pc = .storeSum r → r = total s) : Inv k (s.goto id pc) := by
  obtain ⟨hout, hwait, hne, hne', hfence⟩ := hq
  have hth : (s.goto id pc).thread id = { s.thread id with pc := pc } := goto_thread
  have hholds : Holds (s.goto id pc) id ↔ pc.inside = true ∨ (.flag id, 0) ∈ s.store.buf id := by
    unfold Holds
    rw [hth]
    rfl
  have hlocal := h.local_ id
  refine h.move goto_moves ?_ (fun hh => hholds.mpr (hh.imp_left (hold ▸ hout))) (fun hh => ?_)
    (fun hw => ?_) ?_ (fun _ => Iff.rfl) ?_
  · rw [hth]
    exact ⟨hbuf, fun hr => hr.elim hraised fun hm => hlocal.raised (Or.inr hm),
      fun hc => absurd hc hfence, hlocal.round.1, hround⟩
  · rcases hholds.mp hh with hpc | hm
    · exact (hin hpc).imp_left fun hc => Or.inl (hold ▸ hc)
    · exact Or.inl (Or.inr hm)
  · unfold Waits at hw
    rw [hth] at hw
    exact ⟨hold ▸ hwait hw.1, hw.2⟩
  · rw [hth]
    unfold fed
    rw [if_neg hne', if_neg (hold ▸ hne)]
  · rw [hth]
    exact hload

/-- A thread in the middle of a round has not come to the end of its loop. -/
theorem Inv.round_lt (h : Inv k s) {pc : Pc} (hpc : (s.thread id).pc = pc)
    (hne : pc ≠ .top ∧ pc ≠ .done) : (s.thread id).i < k := by
  subst hpc
  exact ((h.local_ id).round.2.1.resolve_left hne.1).resolve_left hne.2

theorem Inv.flag_up (h : Inv k s) {pc : Pc} (hpc : (s.thread id).pc = pc)
    (hr : pc.raised = true) : s.store.mem (.flag id) = 1 := by
  subst hpc
  exact (h.local_ id).raised (Or.inl hr)

theorem Inv.buf_nil (h : Inv k s) {pc : Pc} (hpc : (s.thread id).pc = pc)
    (hp : ∀ v, pending id v pc = []) : s.store.buf id = [] := by
  obtain ⟨v, hbuf⟩ := (h.local_ id).buffer
  rw [hpc, hp] at hbuf
  exact List.suffix_nil.mp hbuf

/-- A step of a thread in `Lock`, behind its fence, with nothing in its buffer. -/
theorem Inv.within (h : Inv k s) {old pc : Pc} (hold : (s.thread id).pc = old) (hq : Quiet old pc)
    (hround : old ≠ .top ∧ old ≠ .done ∧ pc ≠ .done) (hempty : s.store.buf id = [])
    (hflag : s.store.mem (.flag id) = 1) (hin : pc.inside = true → old.inside = true ∨ MayEnter s id)
    (hload : ∀ r, pc = .storeSum r → r = total s) : Inv k (s.goto id pc) := by
  have hi : (s.thread id).i < k := h.round_lt hold ⟨hround.1, hround.2.1⟩
  exact h.goto hold hq ⟨0, by rw [hempty]; exact List.nil_suffix⟩ (fun _ => hflag)
    ⟨Or.inr (Or.inr hi), fun hc => absurd hc hround.2.2⟩ hin hload

/-- A step that stores to the own flag, to raise it, or to `g_victim`. -/
theorem Inv.put (h : Inv k s) {pc : Pc} {x : Var} {v : Int} (hx : x ≠ .sum)
    (hv : (x, v) ≠ (.flag id, 0)) (hbuf : ∃ w, s.store.buf id ++ [(x, v)] <:+ pending id w pc)
    (hraised : pc.raised = true → s.store.mem (.flag id) = 1) (hround : (s.thread id).i < k)
    (hpc : pc.inside = false ∧ pc ≠ .done) (hpc' : (s.thread id).pc.inside = false) :
    Inv k ((s.put id x v).goto id pc) := by
  have hth : ((s.put id x v).goto id pc).thread id = { s.thread id with pc := pc } := goto_thread
  have hb : ((s.put id x v).goto id pc).store.buf id = s.store.buf id ++ [(x, v)] :=
    Tso.Store.push_self
  have hmem : ∀ e, e ≠ (x, v) →
      (e ∈ ((s.put id x v).goto id pc).store.buf id ↔ e ∈ s.store.buf id) := by
    intro e he
    rw [hb, List.mem_append, List.mem_singleton, or_iff_left he]
  have hholds : Holds ((s.put id x v).goto id pc) id ↔ Holds s id := by
    unfold Holds
    rw [hmem _ hv.symm, hth, hpc']
    show pc.inside = true ∨ _ ↔ _
    rw [hpc.1]
  have hne : ∀ p : Pc, p.inside = false → p ≠ .unlock := by
    rintro p hp rfl
    cases hp
  refine h.move put_moves ?_ hholds.mpr (fun hh => Or.inl (hholds.mp hh)) (fun hw => ?_) ?_
    (fun w => hmem _ (fun he => hx (congrArg Prod.fst he).symm)) (fun r hr => ?_)
  · rw [hth]
    refine ⟨by rw [hb]; exact hbuf, fun hr => ?_, fun _ hnil => ?_, (h.local_ id).round.1,
      Or.inr (Or.inr hround), fun hd => absurd hd hpc.2⟩
    rcases hr with hr | hm
    · exact hraised hr
    · exact (h.local_ id).raised (Or.inr ((hmem _ hv.symm).mp hm))
    · rw [hb] at hnil
      simp at hnil
  · have hnil := hw.2
    rw [hb] at hnil
    simp at hnil
  · rw [hth]
    unfold fed
    rw [if_neg (hne pc hpc.1), if_neg (hne _ hpc')]
  · rw [hth] at hr
    change pc = .storeSum r at hr
    rw [hr] at hpc
    cases hpc.1

/-- Nobody else has a store to `g_sum` in the buffer of a thread that is inside, which is empty up
to its own store. -/
theorem Inv.sum_eq (h : Inv k s) (hin : (s.thread id).pc.inside = true)
    (hb : s.store.buf id = []) : s.store.mem .sum = total s := by
  refine h.settled (forall_two id (fun v hv => ?_) fun v hv => ?_)
  · rw [hb] at hv
    cases hv
  · exact (h.excl id (Or.inl hin)).1 (h.stored (!id) v hv).1

theorem total_succ (h : fed (s'.thread id) = fed (s.thread id) + 1)
    (h' : s'.thread (!id) = s.thread !id) : total s' = incr (total s) := by
  unfold total incr
  rw [Int.bmod_add_bmod]
  congr 1
  cases id
  · rw [h, show s'.thread true = s.thread true from h']
    omega
  · rw [h, show s'.thread false = s.thread false from h']
    omega

theorem inv_storeSum (h : Inv k s) {r : Int} (hpc : (s.thread id).pc = .storeSum r) :
    Inv k ((s.put id .sum (incr r)).goto id .unlock) := by
  obtain ⟨s', hs'⟩ : ∃ s', s' = (s.put id .sum (incr r)).goto id .unlock := ⟨_, rfl⟩
  have hm : Moves s s' id := hs' ▸ put_moves
  have hth : s'.thread id = { s.thread id with pc := .unlock } := hs' ▸ goto_thread
  have hempty : s.store.buf id = [] := h.buf_nil hpc fun _ => rfl
  have hb : s'.store.buf id = [(.sum, incr r)] := by
    rw [hs', show ((s.put id .sum (incr r)).goto id .unlock).store.buf id = _ from
      Tso.Store.push_self, hempty]
    rfl
  have hin : Holds s id := Or.inl (by rw [hpc]; rfl)
  obtain ⟨hother, hvictim⟩ := h.excl id hin
  have htotal : total s' = incr r := by
    rw [h.loaded id r hpc]
    refine total_succ ?_ hm.thread
    rw [hth]
    unfold fed
    rw [if_pos rfl, if_neg (by rw [hpc]; exact fun hc => by cases hc)]
  rw [← hs']
  refine ⟨forall_two id ?_ ?_, ?_, forall_two id (fun _ => ?_) (fun hh => ?_),
    forall_two id ?_ ?_, ?_, forall_two id ?_ ?_⟩
  · rw [hm.mem, hth, hb]
    exact ⟨⟨incr r, List.suffix_rfl⟩, fun _ => h.flag_up hpc rfl, fun hc => (by cases hc),
      (h.local_ id).round.1, Or.inr (Or.inr (h.round_lt hpc ⟨by nofun, by nofun⟩)),
      fun hd => by cases hd⟩
  · rw [hm.mem, hm.thread, hm.buf]; exact h.local_ !id
  · rw [hm.mem]; exact h.victim
  · rw [hm.holds, hm.waits, hm.mem]
    exact ⟨hother, hvictim⟩
  · exact absurd (hm.holds.mp hh) hother
  · intro v hv
    rw [hb, List.mem_singleton] at hv
    cases hv
    exact ⟨Or.inl (by rw [hth]; rfl), htotal.symm⟩
  · intro v hv
    rw [hm.buf] at hv
    exact absurd (h.stored (!id) v hv).1 hother
  · intro hno
    exact absurd (by rw [hb]; exact List.mem_cons_self) (hno id (incr r))
  · intro r' hr'
    rw [hth] at hr'
    cases hr'
  · intro r' hr'
    rw [hm.thread] at hr'
    exact absurd (Or.inl (by rw [hr']; rfl)) hother

theorem inv_unlock (h : Inv k s) (hpc : (s.thread id).pc = .unlock) :
    Inv k { s.put id (.flag id) 0 with
      thread := Function.update s.thread id ⟨.top, (s.thread id).i + 1⟩ } := by
  obtain ⟨s', hs'⟩ : ∃ s' : St, s' = { s.put id (.flag id) 0 with
      thread := Function.update s.thread id ⟨.top, (s.thread id).i + 1⟩ } := ⟨_, rfl⟩
  have hth : s'.thread id = ⟨.top, (s.thread id).i + 1⟩ := by rw [hs']; exact Function.update_self ..
  have hb : s'.store.buf id = s.store.buf id ++ [(.flag id, 0)] := by
    rw [hs']; exact Tso.Store.push_self
  have hm : Moves s s' id := by
    rw [hs']
    exact ⟨rfl, Function.update_of_ne (Bool.not_ne_self id) ..,
      Tso.Store.push_other (Bool.not_ne_self id)⟩
  rw [← hs']
  refine h.move hm ?_ (fun _ => Or.inr ?_) (fun _ => Or.inl (Or.inl (by rw [hpc]; rfl)))
    (fun hw => ?_) ?_ (fun v => ?_) (fun r hr => ?_)
  · rw [hth, hb]
    obtain ⟨v, hbuf⟩ := (h.local_ id).buffer
    rw [hpc] at hbuf
    exact ⟨⟨v, Tso.suffix_push hbuf _⟩, fun _ => h.flag_up hpc rfl, fun hc => (by cases hc),
      h.round_lt hpc (by decide), Or.inl rfl, fun hd => by cases hd⟩
  · rw [hb]
    exact List.mem_append_right _ List.mem_cons_self
  · have hw' := hw.1
    rw [hth] at hw'
    cases hw'
  · rw [hth]
    unfold fed
    rw [if_pos hpc]
    rfl
  · rw [hb, List.mem_append, List.mem_singleton]
    simp
  · rw [hth] at hr
    cases hr

/-! ## A store reaches the memory -/

/-- The oldest store of a buffer, and what is left of the buffer. -/
theorem pending_head {x : Var} {v w : Int} {b : List (Var × Int)} {pc : Pc}
    (h : (x, v) :: b <:+ pending id w pc) : (∀ u, (.sum, u) ∉ b) ∧
      (pc = .fence → b = [] → x = .flag id ∧ v = 1) ∧
      ((x = .sum ∧ (pc.raised = true → pc = .unlock)) ∨
        (x = .flag id ∧ pc.raised = false ∧ (v = 0 ∨ v = 1) ∧ (.flag id, 0) ∉ b) ∨
        (x = .victim ∧ v = num id ∧ pc = .readFlag ∧ b = [])) := by
  cases pc
  case top | setFlag | done =>
    simp only [pending, List.suffix_cons_iff, List.suffix_nil, List.cons.injEq, Prod.mk.injEq,
      reduceCtorEq, or_false] at h
    rcases h with ⟨⟨rfl, rfl⟩, rfl⟩ | ⟨⟨rfl, rfl⟩, rfl⟩
    · exact ⟨by simp, by simp, Or.inl ⟨rfl, fun hc => by cases hc⟩⟩
    · exact ⟨by simp, by simp, Or.inr (Or.inl ⟨rfl, rfl, Or.inl rfl, by simp⟩)⟩
  case fence =>
    simp only [pending, List.suffix_cons_iff, List.suffix_nil, List.cons.injEq, Prod.mk.injEq,
      reduceCtorEq, or_false] at h
    rcases h with ⟨⟨rfl, rfl⟩, rfl⟩ | ⟨⟨rfl, rfl⟩, rfl⟩ | ⟨⟨rfl, rfl⟩, rfl⟩
    · exact ⟨by simp, by simp, Or.inl ⟨rfl, fun hc => by cases hc⟩⟩
    · exact ⟨by simp, by simp, Or.inr (Or.inl ⟨rfl, rfl, Or.inl rfl, by simp⟩)⟩
    · exact ⟨by simp, by simp, Or.inr (Or.inl ⟨rfl, rfl, Or.inr rfl, by simp⟩)⟩
  case readFlag =>
    simp only [pending, List.suffix_cons_iff, List.suffix_nil, List.cons.injEq, Prod.mk.injEq,
      reduceCtorEq, or_false] at h
    obtain ⟨⟨rfl, rfl⟩, rfl⟩ := h
    exact ⟨by simp, by simp, Or.inr (Or.inr ⟨rfl, rfl, rfl, rfl⟩)⟩
  case unlock =>
    simp only [pending, List.suffix_cons_iff, List.suffix_nil, List.cons.injEq, Prod.mk.injEq,
      reduceCtorEq, or_false] at h
    obtain ⟨⟨rfl, rfl⟩, rfl⟩ := h
    exact ⟨by simp, by simp, Or.inl ⟨rfl, fun _ => rfl⟩⟩
  all_goals
    exact absurd (List.suffix_nil.mp h) (List.cons_ne_nil _ _)

/-- What is stored when the buffer of thread `id` is flushed, and what that changes. -/
structure Flushes (s : St) (m : Tso.Store Bool Var Int) (id : Bool) (x : Var) (v : Int)
    (b : List (Var × Int)) : Prop where
  buf : s.store.buf id = (x, v) :: b
  rest : m.buf id = b
  other : m.buf (!id) = s.store.buf !id
  self : m.mem x = v
  mem : ∀ y, y ≠ x → m.mem y = s.store.mem y

section
variable {m : Tso.Store Bool Var Int} {x : Var} {v : Int} {b : List (Var × Int)}

theorem flushes (hs : s.store.flush id = some m) : ∃ x v b, Flushes s m id x v b := by
  obtain ⟨x, v, b, hbuf, hmem, hb, hother⟩ := Tso.Store.flush_cases hs
  refine ⟨x, v, b, hbuf, hb, hother _ (Bool.not_ne_self id), ?_, fun y hy => ?_⟩
  · rw [hmem, Function.update_self]
  · rw [hmem, Function.update_of_ne hy]

theorem Flushes.pending (f : Flushes s m id x v b) (h : Inv k s) :
    ∃ w, (x, v) :: b <:+ pending id w (s.thread id).pc := by
  rw [← f.buf]
  exact (h.local_ id).buffer

theorem Flushes.mem_buf (f : Flushes s m id x v b) {e : Var × Int} (he : e ∈ b) :
    e ∈ s.store.buf id := by
  rw [f.buf]
  exact List.mem_cons_of_mem _ he

theorem Flushes.holds (f : Flushes s m id x v b) (hh : Holds { s with store := m } id) :
    Holds s id := by
  rcases hh with hh | hh
  · exact Or.inl hh
  · exact Or.inr (f.mem_buf (f.rest ▸ hh))

theorem Flushes.holds_other (f : Flushes s m id x v b) :
    Holds { s with store := m } (!id) ↔ Holds s !id := by
  unfold Holds
  rw [← f.other]

theorem Flushes.waits_other (f : Flushes s m id x v b) :
    Waits { s with store := m } (!id) ↔ Waits s !id := by
  unfold Waits
  rw [← f.other]

/-- A thread that holds the lock has no store to `g_victim`. -/
theorem Flushes.ne_victim (f : Flushes s m id x v b) (h : Inv k s)
    (hh : Holds { s with store := m } id) : x ≠ .victim := by
  obtain ⟨w, hsuf⟩ := f.pending h
  rintro rfl
  rcases (pending_head hsuf).2.2 with ⟨hc, -⟩ | ⟨hc, -⟩ | ⟨-, -, hpc, hnil⟩
  · cases hc
  · cases hc
  · rcases hh with hh | hh
    · change (s.thread id).pc.inside = true at hh
      rw [hpc] at hh
      cases hh
    · change _ ∈ m.buf id at hh
      rw [f.rest, hnil] at hh
      cases hh

/-- A thread that waits with nothing left to store has stored to `g_victim`. -/
theorem Flushes.victim_of_waits (f : Flushes s m id x v b) (h : Inv k s)
    (hw : Waits { s with store := m } id) : m.mem .victim = num id := by
  obtain ⟨w, hsuf⟩ := f.pending h
  have hpc : (s.thread id).pc.raised = true ∧ (s.thread id).pc ≠ .unlock :=
    Pc.raised_of_waiting hw.1
  rcases (pending_head hsuf).2.2 with ⟨-, hr⟩ | ⟨-, hr, -⟩ | ⟨rfl, rfl, -⟩
  · exact absurd (hr hpc.1) hpc.2
  · rw [hpc.1] at hr
    cases hr
  · exact f.self

theorem Flushes.victim (f : Flushes s m id x v b) (h : Inv k s) : ∃ y, m.mem .victim = num y := by
  obtain ⟨w, hsuf⟩ := f.pending h
  by_cases hv : x = .victim
  · subst hv
    rcases (pending_head hsuf).2.2 with ⟨hc, -⟩ | ⟨hc, -⟩ | ⟨-, hnum, -⟩
    · cases hc
    · cases hc
    · exact ⟨id, f.self.trans hnum⟩
  · rw [f.mem _ (Ne.symm hv)]
    exact h.victim

theorem Flushes.local_self (f : Flushes s m id x v b) (h : Inv k s) :
    Local k id (s.thread id) (m.buf id) (m.mem (.flag id)) := by
  obtain ⟨w, hsuf⟩ := f.pending h
  obtain ⟨-, hlast, hx⟩ := pending_head hsuf
  have hold := h.local_ id
  rw [f.rest]
  refine ⟨⟨w, Tso.suffix_of_flush hsuf⟩, fun hr => ?_, fun hpc hnil => ?_, hold.round⟩
  · rcases hx with ⟨rfl, -⟩ | ⟨rfl, hlow, -, hno⟩ | ⟨rfl, -⟩
    · rw [f.mem _ (fun hc => by cases hc)]
      exact hold.raised (hr.imp_right f.mem_buf)
    · rcases hr with hr | hr
      · rw [hlow] at hr; cases hr
      · exact absurd hr hno
    · rw [f.mem _ (fun hc => by cases hc)]
      exact hold.raised (hr.imp_right f.mem_buf)
  · obtain ⟨rfl, rfl⟩ := hlast hpc hnil
    exact f.self

theorem Flushes.local_other (f : Flushes s m id x v b) (h : Inv k s) :
    Local k (!id) (s.thread !id) (m.buf !id) (m.mem (.flag !id)) := by
  obtain ⟨w, hsuf⟩ := f.pending h
  -- the other thread's flag is not among the variables that this one stores to
  have hne : (.flag !id) ≠ x := by
    rcases (pending_head hsuf).2.2 with ⟨rfl, -⟩ | ⟨rfl, -⟩ | ⟨rfl, -⟩
    · exact fun hc => by cases hc
    · cases id <;> exact fun hc => by cases hc
    · exact fun hc => by cases hc
  rw [f.other, f.mem _ hne]
  exact h.local_ !id

theorem Flushes.sum_eq (f : Flushes s m id x v b) (h : Inv k s)
    (hno : ∀ y u, (.sum, u) ∉ m.buf y) : m.mem .sum = total s := by
  obtain ⟨w, hsuf⟩ := f.pending h
  by_cases hsum : x = .sum
  · subst hsum
    rw [f.self]
    exact (h.stored id v (by rw [f.buf]; exact List.mem_cons_self)).2
  · rw [f.mem _ (Ne.symm hsum)]
    refine h.settled (forall_two id (fun u hu => ?_) fun u hu => ?_)
    · rw [f.buf, List.mem_cons] at hu
      rcases hu with hu | hu
      · exact hsum (congrArg Prod.fst hu).symm
      · exact (pending_head hsuf).1 u hu
    · exact hno (!id) u (by rw [f.other]; exact hu)

theorem inv_flush (h : Inv k s) (hs : s.store.flush id = some m) :
    Inv k { s with store := m } := by
  obtain ⟨x, v, b, f⟩ := flushes hs
  refine ⟨forall_two id (f.local_self h) (f.local_other h), f.victim h,
    forall_two id (fun hh => ?_) (fun hh => ?_), forall_two id (fun u hu => ?_) (fun u hu => ?_),
    f.sum_eq h, h.loaded⟩
  · rw [f.holds_other, f.waits_other]
    show _ ∧ (_ → m.mem .victim = _)
    rw [f.mem _ (Ne.symm (f.ne_victim h hh))]
    exact h.excl id (f.holds hh)
  · rw [Bool.not_not]
    have hexcl := h.excl (!id) (f.holds_other.mp hh)
    rw [Bool.not_not] at hexcl
    exact ⟨fun hn => hexcl.1 (f.holds hn), f.victim_of_waits h⟩
  · change _ ∈ m.buf id at hu
    rw [f.rest] at hu
    obtain ⟨w, hsuf⟩ := f.pending h
    exact absurd hu ((pending_head hsuf).1 u)
  · rw [f.holds_other]
    change _ ∈ m.buf !id at hu
    rw [f.other] at hu
    exact h.stored (!id) u hu

end

/-! ## Whole runs -/

theorem inv_run (h : Inv k s) (hd : Drained s (.run id)) (hs : threadStep k s id = some s') :
    Inv k s' := by
  have hlocal := h.local_ id
  obtain ⟨v, hbuf⟩ := hlocal.buffer
  unfold threadStep at hs
  cases hpc : (s.thread id).pc with
  | top =>
    rw [hpc] at hs hbuf
    cases hs
    by_cases hi : (s.thread id).i < k
    · rw [if_pos hi]
      exact h.goto hpc (by decide) ⟨v, hbuf⟩ (fun hc => by cases hc)
        ⟨Or.inr (Or.inr hi), fun hc => by cases hc⟩ (fun hc => by cases hc) (fun _ hc => by cases hc)
    · rw [if_neg hi]
      exact h.goto hpc (by decide) ⟨v, hbuf⟩ (fun hc => by cases hc)
        ⟨Or.inr (Or.inl rfl), fun _ => by have := hlocal.round.1; omega⟩ (fun hc => by cases hc)
        (fun _ hc => by cases hc)
  | setFlag =>
    rw [hpc] at hs hbuf
    cases hs
    exact h.put (fun hc => by cases hc) (by simp) ⟨v, Tso.suffix_push hbuf _⟩ (fun hc => by cases hc)
      (h.round_lt hpc (by decide)) (by decide) (by rw [hpc]; rfl)
  | fence =>
    rw [hpc] at hs
    dsimp only at hs
    split at hs
    · rename_i hempty
      cases hs
      exact h.within hpc (by decide) (by decide) hempty (hlocal.fenced hpc hempty)
        (fun hc => by cases hc) (fun _ hc => by cases hc)
    · cases hs
  | setVictim =>
    have hempty := h.buf_nil hpc fun _ => rfl
    rw [hpc] at hs
    cases hs
    refine h.put (fun hc => by cases hc) (fun hc => by cases hc) ⟨v, ?_⟩
      (fun _ => h.flag_up hpc rfl) (h.round_lt hpc (by decide)) (by decide) (by rw [hpc]; rfl)
    rw [hempty]
    exact List.suffix_rfl
  | readFlag =>
    have hempty := hd id rfl hpc
    rw [hpc] at hs
    cases hs
    rw [Tso.Store.load_of_empty hempty]
    by_cases hf : s.store.mem (.flag !id) = 0
    · rw [if_pos hf]
      exact h.within hpc (by decide) (by decide) hempty (h.flag_up hpc rfl)
        (fun _ => Or.inr (h.mayEnter_of_flag hf)) (fun _ hc => by cases hc)
    · rw [if_neg hf]
      exact h.within hpc (by decide) (by decide) hempty (h.flag_up hpc rfl) (fun hc => by cases hc)
        (fun _ hc => by cases hc)
  | readVictim =>
    have hempty := h.buf_nil hpc fun _ => rfl
    rw [hpc] at hs
    cases hs
    rw [Tso.Store.load_of_empty hempty]
    by_cases hv : s.store.mem .victim = num id
    · rw [if_pos hv]
      exact h.within hpc (by decide) (by decide) hempty (h.flag_up hpc rfl) (fun hc => by cases hc)
        (fun _ hc => by cases hc)
    · rw [if_neg hv]
      have hw : Waits s id := ⟨by rw [hpc]; rfl, hempty⟩
      exact h.within hpc (by decide) (by decide) hempty (h.flag_up hpc rfl)
        (fun _ => Or.inr (h.mayEnter_of_victim hw hv)) (fun _ hc => by cases hc)
  | loadSum =>
    have hempty := h.buf_nil hpc fun _ => rfl
    rw [hpc] at hs
    cases hs
    refine h.within hpc ⟨fun _ => rfl, by nofun, by nofun, by nofun, by nofun⟩
      ⟨by nofun, by nofun, by nofun⟩ hempty (h.flag_up hpc rfl) (fun _ => Or.inl rfl) fun r hr => ?_
    injection hr with hr
    rw [← hr, Tso.Store.load_of_empty hempty]
    exact h.sum_eq (by rw [hpc]; rfl) hempty
  | storeSum r =>
    rw [hpc] at hs
    cases hs
    exact inv_storeSum h hpc
  | unlock =>
    rw [hpc] at hs
    cases hs
    exact inv_unlock h hpc
  | done =>
    rw [hpc] at hs
    cases hs

theorem inv_step {a : Act} (h : Inv k s) (hd : Drained s a) (hs : step k s a = some s') :
    Inv k s' := by
  cases a with
  | run id => exact inv_run h hd hs
  | flush id =>
    obtain ⟨m, hm, rfl⟩ := Option.map_eq_some_iff.mp hs
    exact inv_flush h hm

theorem inv_initial (k : Nat) : Inv k (machine k).init where
  local_ id := ⟨⟨0, List.nil_suffix⟩, fun hc => (by rcases hc with hc | hc <;> cases hc),
    fun hc => (by cases hc), Nat.zero_le k, Or.inl rfl, fun hc => by cases hc⟩
  victim := ⟨false, rfl⟩
  excl id hh := by rcases hh with hh | hh <;> cases hh
  stored id v hv := by cases hv
  settled _ := by
    have hzero : total (machine k).init = Int.bmod 0 (2 ^ 32) := rfl
    rw [hzero, Int.zero_bmod]
    rfl
  loaded id r hr := by cases hr

end

/-! ## The theorem -/

/-- If every thread finds its buffer empty when it reads the other flag, the threads are never both
inside, and `g_sum` is `2 k` at the end as long as that is an `int`. -/
theorem lock_right (k : Nat) (as : List Act) (s : St)
    (hd : (machine k).AllSteps Drained (machine k).init as) (hr : (machine k).run as = some s) :
    ¬((s.thread false).pc.inside = true ∧ (s.thread true).pc.inside = true) ∧
      (2 * k ≤ 2147483647 → Finished s → s.store.mem .sum = 2 * k) := by
  have h : Inv k s := (machine k).invariantOn Drained (Inv k) (inv_initial k)
    (fun _ _ _ h hd hs => inv_step h hd hs) hd hr
  refine ⟨fun hin => (h.excl false (Or.inl hin.1)).1 (Or.inl hin.2), fun hk hf => ?_⟩
  have hfed : ∀ id, fed (s.thread id) = k := by
    intro id
    unfold fed
    rw [(h.local_ id).round.2.2 (hf id).1, (hf id).1]
    rfl
  rw [h.settled fun id v hv => by rw [(hf id).2] at hv; cases hv]
  unfold total
  rw [hfed, hfed, Int.bmod_eq_of_le (by omega) (by omega)]
  omega

/-- One round of a thread whose stores reach the memory at once. -/
def roundAlone (id : Bool) : List Act :=
  [.run id, .run id, .flush id, .run id, .run id, .flush id, .run id, .run id, .run id, .flush id,
    .run id, .flush id, .run id]

theorem lock_right_once : ∃ s, (machine 1).run (roundAlone false ++ roundAlone true) = some s ∧
    (machine 1).AllSteps Drained (machine 1).init (roundAlone false ++ roundAlone true) ∧
    Finished s ∧ s.store.mem .sum = 2 := by
  have hs : ((machine 1).run (roundAlone false ++ roundAlone true)).any
      (fun s => decide (Finished s)) = true := by
    decide +kernel
  have hd : (machine 1).AllSteps Drained (machine 1).init (roundAlone false ++ roundAlone true) := by
    decide +kernel
  obtain ⟨s, hr, hf⟩ := (Option.any_eq_true _ _).mp hs
  have hf := of_decide_eq_true hf
  exact ⟨s, hr, hd, hf, (lock_right 1 _ s hd hr).2 (by decide) hf⟩

/-- Thread 0 enters while its store to `g_victim` is buffered; thread 1 becomes the victim and waits
until the store of thread 0 reaches the memory. -/
def lateVictim : List Act :=
  [.run false, .run false, .flush false, .run false, .run false, .run false,
    .run true, .run true, .flush true, .run true, .run true, .flush true, .run true,
    .flush false, .run true]

/-- Both threads load `g_sum` before one of them stores to it. -/
def bothFeed : List Act :=
  [.run false, .run true, .run false, .run true, .run false, .run true, .flush false, .flush false,
    .flush true, .flush true, .run false, .run true]

/-- Both threads are inside, and one of the two additions to `g_sum` is lost. -/
theorem both_inside : ∃ s, (machine 1).run lateVictim = some s ∧
    (s.thread false).pc.inside = true ∧ (s.thread true).pc.inside = true ∧
    ∃ s', (machine 1).runFrom s bothFeed = some s' ∧ Finished s' ∧ s'.store.mem .sum = 1 := by
  have hs : ((machine 1).run lateVictim).any (fun s => decide ((s.thread false).pc.inside = true ∧
      (s.thread true).pc.inside = true) && ((machine 1).runFrom s bothFeed).any fun s' =>
        decide (Finished s' ∧ s'.store.mem .sum = 1)) = true := by
    decide +kernel
  obtain ⟨s, hr, h⟩ := (Option.any_eq_true _ _).mp hs
  obtain ⟨hin, hrest⟩ := Bool.and_eq_true_iff.mp h
  obtain ⟨s', hr', h'⟩ := (Option.any_eq_true _ _).mp hrest
  obtain ⟨h1, h2⟩ := of_decide_eq_true hin
  exact ⟨s, hr, h1, h2, s', hr', of_decide_eq_true h'⟩

end MulticorePrac.Peterson
