import MulticorePrac.Lib.Threads
import MulticorePrac.MultiBfs.Model

/-!
# The barrier of the workers

`Inv n D y worker`: the invariant of the `n` workers and of the variables `y` that they
share, at level `D`.  The level is the number of times that the next level's bitmaps
were prepared.

* The done bits of the level are those of the workers that have signed it; the expected
  bits are those of its members, and of a worker that is being given work.
* A worker that has signed is at level `D`, or one behind (`Late`), when the others may
  have gone on.  It is then still a member and has not signed level `D`, so that no one
  passes the barrier of level `D` and prepares the bitmaps it is still reading.
* `Covered`: every expected bit is a done bit.  This is what a worker knows that has
  passed, and it stays so: only a member that has not signed can add an expected bit.
* `num_free_workers_` is behind the number of free workers by one while a worker has
  taken one off and not yet set `is_busy`, or has cleared it and not yet counted itself.

What one worker knows (`Ok`) speaks of the shared variables and of its own state only.
-/

namespace MulticorePrac.MultiBfs

open House (Bits gPow2 getLsbD_gPow2)

/-! ## Places in the code -/

/-- Inside `worker_making_mutex_`. -/
def Pc.inMaking : Pc → Bool
  | .giveCheck | .giveBreak | .giveDec | .giveScan | .giveParam | .giveFull | .giveBusy
  | .giveUnlock | .passTest | .resetDone | .copyFull | .setFlag | .clearFlag | .passUnlock
  | .leaveFull | .leaveNext | .leaveBusy | .leaveFree | .leaveUnlock => true
  | _ => false

/-- Inside `worker_done_bits_mutex_`. -/
def Pc.inDone : Pc → Bool
  | .doneLoad | .doneStore | .doneUnlock => true
  | _ => false

/-- The own done bit of the level is set. -/
def Pc.signed : Pc → Bool
  | .doneUnlock | .waitDone | .waitFull | .waitFullAgain | .passLock | .passTest | .resetDone
  | .copyFull | .setFlag | .clearFlag | .passUnlock => true
  | _ => false

/-- Expected at the barrier; a worker that waits for work is when it has been given some. -/
def Pc.member (busy : Bool) : Pc → Bool
  | .idle | .idleFree => busy
  | .leaveNext | .leaveBusy | .leaveFree | .leaveUnlock | .finished | .fault => false
  | _ => true

/-- Between the change of `num_free_workers_` and that of `is_busy`. -/
def Pc.owes : Pc → Bool
  | .giveScan | .giveParam | .giveFull | .giveBusy | .leaveFree => true
  | _ => false

theorem Pc.inMaking_of_owes {pc : Pc} (h : pc.owes = true) : pc.inMaking = true := by
  cases pc <;> first | rfl | cases h

/-! ## The invariant -/

/-- Worker `i` is a member, or is being given work. -/
def Expected (busy : Nat → Bool) (worker : Nat → Worker) (i : Nat) : Prop :=
  (worker i).pc.member (busy i) = true ∨ ∃ w, (worker w).pc = .giveBusy ∧ (worker w).i = i

def SignedAt (D : Nat) (l : Worker) : Prop := l.pc.signed = true ∧ l.dist = D

section
variable (n D : Nat) (y : Sync)

/-- Every worker that is expected at level `d` has signed it. -/
def Covered (d : Nat) : Prop :=
  ∀ i, (y.workerDoneFullBits (d % 2)).getLsbD i = true → (y.workerDoneBits (d % 2)).getLsbD i = true

/-- One level behind, where everyone has signed. -/
def Late (l : Worker) : Prop := l.dist + 1 = D ∧ Covered y l.dist

/-- What worker `w` knows at each place. -/
def Ok (w : Nat) (l : Worker) : Prop :=
  match l.pc with
  | .idle | .idleFree => y.isBusy w = true → y.startDist w = D
  | .load => y.isBusy w = true ∧ y.startDist w = D
  | .levelTest | .giveTest | .giveLock | .giveCheck | .giveBreak | .giveUnlock | .visit | .mark
  | .update | .setBits | .doneLock | .doneLoad | .leaveLock | .leaveFull
  | .leaveNext => y.isBusy w = true ∧ l.dist = D
  | .giveDec => y.isBusy w = true ∧ l.dist = D ∧ 0 < y.numFreeWorkers
  | .giveScan => y.isBusy w = true ∧ l.dist = D ∧ ∀ k < l.i, y.isBusy k = true
  | .giveParam => y.isBusy w = true ∧ l.dist = D ∧ l.i < n ∧ y.isBusy l.i = false
  | .giveFull | .giveBusy => y.isBusy w = true ∧ l.dist = D ∧ l.i < n ∧ y.isBusy l.i = false ∧
      y.startVertex l.i = l.lastVertex ∧ y.startDist l.i = D
  | .doneStore => y.isBusy w = true ∧ l.dist = D ∧ l.bits = y.workerDoneBits (D % 2)
  | .doneUnlock | .waitDone => y.isBusy w = true ∧ (l.dist = D ∨ Late D y l)
  | .waitFull | .waitFullAgain => y.isBusy w = true ∧
      ((l.dist = D ∧ ∀ i, l.bits.getLsbD i = true → (y.workerDoneBits (D % 2)).getLsbD i = true) ∨
        Late D y l)
  | .passLock | .passTest => y.isBusy w = true ∧ ((l.dist = D ∧ Covered y D) ∨ Late D y l)
  | .resetDone => y.isBusy w = true ∧ l.dist = D ∧ Covered y D
  | .copyFull => y.isBusy w = true ∧ l.dist = D ∧ Covered y D ∧ y.workerDoneBits (1 - D % 2) = 0
  | .setFlag => y.isBusy w = true ∧ l.dist = D ∧ Covered y D ∧
      y.workerDoneBits (1 - D % 2) = 0 ∧
      y.workerDoneFullBits (1 - D % 2) = y.workerDoneFullBits (D % 2)
  | .clearFlag => y.isBusy w = true ∧ l.dist = D ∧ Covered y D ∧
      y.workerDoneBits (1 - D % 2) = 0 ∧
      y.workerDoneFullBits (1 - D % 2) = y.workerDoneFullBits (D % 2) ∧
      y.doneBitsFlag (D % 2) = true
  | .passUnlock => y.isBusy w = true ∧ Late D y l
  | .leaveBusy => y.isBusy w = true
  | .leaveFree | .leaveUnlock | .finished => y.isBusy w = false
  | .fault => False

structure Inv (worker : Nat → Worker) : Prop where
  making : Guarded (fun l : Worker => l.pc.inMaking = true) y.workerMakingMutex worker
  doneMutex : Guarded (fun l : Worker => l.pc.inDone = true) y.workerDoneBitsMutex worker
  absent : ∀ w, n ≤ w → (worker w).pc = .idle ∧ y.isBusy w = false
  ok : ∀ w, Ok n D y w (worker w)
  full : ∀ i, (y.workerDoneFullBits (D % 2)).getLsbD i = true ↔ Expected y.isBusy worker i
  done : ∀ i, (y.workerDoneBits (D % 2)).getLsbD i = true ↔ SignedAt D (worker i)
  free : tally (fun b => !b) y.isBusy n =
    y.numFreeWorkers + tally (fun l : Worker => l.pc.owes) worker n
  flag : y.doneBitsFlag (D % 2) = true → ∃ w, (worker w).pc = .clearFlag
  lastFlag : 0 < D → y.doneBitsFlag (1 - D % 2) = true
  finished : ∀ w, (worker w).pc = .finished → ∀ u, y.isBusy u = false

end

section
variable {n D : Nat} {y y' : Sync} {worker : Nat → Worker} {w u : Nat} {l : Worker}

theorem other_parity (D : Nat) : (D + 1) % 2 = 1 - D % 2 := by omega

theorem Late.parity (h : Late D y l) : l.dist % 2 = 1 - D % 2 := by
  have := h.1
  omega

/-! ## What follows from it -/

/-- Where everyone expected has signed, every member has. -/
theorem Inv.signed_of_covered (h : Inv n D y worker) (hc : Covered y D)
    (hm : (worker u).pc.member (y.isBusy u) = true) : SignedAt D (worker u) :=
  (h.done u).mp (hc u ((h.full u).mpr (Or.inl hm)))

theorem Pc.member_of_signed {pc : Pc} (b : Bool) (h : pc.signed = true) : pc.member b = true := by
  cases pc <;> first | rfl | cases h

/-- No one is late where everyone expected has signed. -/
theorem Inv.not_late (h : Inv n D y worker) (hc : Covered y D)
    (hs : (worker u).pc.signed = true) : (worker u).dist + 1 ≠ D := by
  have := (h.signed_of_covered hc (Pc.member_of_signed _ hs)).2
  omega

/-- While some member has not signed, not everyone expected has. -/
theorem Inv.not_covered (h : Inv n D y worker) (hm : (worker u).pc.member (y.isBusy u) = true)
    (hs : (worker u).pc.signed = false) : ¬ Covered y D := by
  intro hc
  rw [(h.signed_of_covered hc hm).1] at hs
  cases hs

theorem Inv.outside (h : Inv n D y worker) (hw : (worker w).pc.inMaking = true) (hu : u ≠ w) :
    (worker u).pc.inMaking = false := by
  by_contra hc
  exact hu (h.making.inj (Bool.eq_true_of_not_eq_false hc) hw)

/-- A free worker that is not inside a mutex waits for work, or has ended. -/
theorem Ok.waits_of_free (h : Ok n D y u l) (hout : l.pc.inMaking = false)
    (hb : y.isBusy u = false) : l.pc = .idle ∨ l.pc = .idleFree ∨ l.pc = .finished := by
  unfold Ok at h
  cases hpc : l.pc <;> simp_all [Pc.inMaking]

theorem Covered.mono {d : Nat} (h : Covered y d)
    (hfull : ∀ i, (y'.workerDoneFullBits (d % 2)).getLsbD i = true →
      (y.workerDoneFullBits (d % 2)).getLsbD i = true)
    (hdone : y'.workerDoneBits (d % 2) = y.workerDoneBits (d % 2)) : Covered y' d := by
  intro i hi
  rw [hdone]
  exact h i (hfull i hi)

theorem Late.mono (h : Late D y l)
    (hfull : ∀ i, (y'.workerDoneFullBits (1 - D % 2)).getLsbD i = true →
      (y.workerDoneFullBits (1 - D % 2)).getLsbD i = true)
    (hdone : y'.workerDoneBits (1 - D % 2) = y.workerDoneBits (1 - D % 2)) : Late D y' l := by
  rw [← h.parity] at hfull hdone
  exact ⟨h.1, h.2.mono hfull hdone⟩

/-! ## What others do to a worker -/

/-- What a worker knows stays true when another one changes something under
`worker_making_mutex_`. -/
theorem Ok.rely (h : Ok n D y u l) (hout : l.pc.inMaking = false)
    (hbusy : y'.isBusy u = y.isBusy u) (hdist : y'.startDist u = y.startDist u)
    (hdone : y'.workerDoneBits (D % 2) = y.workerDoneBits (D % 2))
    (hcov : Covered y D → Covered y' D)
    (hlate : l.pc.signed = true → Late D y l → Late D y' l) : Ok n D y' u l := by
  unfold Ok at h ⊢
  cases hpc : l.pc <;> simp only [hpc, Pc.inMaking, Pc.signed] at h hout hlate ⊢
  case doneUnlock | waitDone => exact ⟨hbusy ▸ h.1, h.2.imp_right (hlate trivial)⟩
  case waitFull | waitFullAgain =>
    rw [hdone]
    exact ⟨hbusy ▸ h.1, h.2.imp_right (hlate trivial)⟩
  case passLock =>
    exact ⟨hbusy ▸ h.1, h.2.imp (fun hl => ⟨hl.1, hcov hl.2⟩) (hlate trivial)⟩
  all_goals simp_all

/-- The same when another one signs the level. -/
theorem Ok.rely_signing (h : Ok n D y u l) (hout : l.pc.inDone = false) {c : Bits}
    (hc : ∀ i, (y.workerDoneBits (D % 2)).getLsbD i = true → c.getLsbD i = true) :
    Ok n D { y with workerDoneBits := Function.update y.workerDoneBits (D % 2) c } u l := by
  have hne : 1 - D % 2 ≠ D % 2 := by omega
  have hcov : Covered y D →
      Covered { y with workerDoneBits := Function.update y.workerDoneBits (D % 2) c } D := by
    intro hcov i hi
    show (Function.update y.workerDoneBits (D % 2) c (D % 2)).getLsbD i = true
    rw [Function.update_self]
    exact hc i (hcov i hi)
  have hlate : Late D y l →
      Late D { y with workerDoneBits := Function.update y.workerDoneBits (D % 2) c } l := by
    intro hl
    refine ⟨hl.1, fun i hi => ?_⟩
    show (Function.update y.workerDoneBits (D % 2) c (l.dist % 2)).getLsbD i = true
    rw [hl.parity, Function.update_of_ne hne, ← hl.parity]
    exact hl.2 i hi
  unfold Ok at h ⊢
  cases hpc : l.pc <;> simp only [hpc, Pc.inDone, Function.update_of_ne hne] at h hout ⊢
  case waitDone => exact ⟨h.1, h.2.imp_right hlate⟩
  case waitFull | waitFullAgain =>
    rw [Function.update_self]
    exact ⟨h.1, h.2.imp (fun hl => ⟨hl.1, fun i hi => hc i (hl.2 i hi)⟩) hlate⟩
  case passLock | passTest => exact ⟨h.1, h.2.imp (fun hl => ⟨hl.1, hcov hl.2⟩) hlate⟩
  case resetDone => exact ⟨h.1, h.2.1, hcov h.2.2⟩
  case copyFull | setFlag | clearFlag => exact ⟨h.1, h.2.1, hcov h.2.2.1, h.2.2.2⟩
  case passUnlock => exact ⟨h.1, hlate h.2⟩
  all_goals first | exact h | cases hout

/-- The level ends: whoever had to sign it is late at the next one. -/
theorem Ok.advance (h : Ok n D y u l) (hout : l.pc.inMaking = false) (hc : Covered y D)
    (hs : l.pc.member (y.isBusy u) = true → SignedAt D l) (f : Nat → Bool) :
    Ok n (D + 1) { y with doneBitsFlag := f } u l := by
  have hlate : l.dist = D → Late (D + 1) { y with doneBitsFlag := f } l := by
    intro hd
    refine ⟨by omega, ?_⟩
    rw [hd]
    exact hc
  unfold Ok at h ⊢
  cases hpc : l.pc <;> simp only [hpc, Pc.inMaking, Pc.member, SignedAt, Pc.signed] at h hout hs ⊢
  case idle | idleFree => exact fun hb => absurd (hs hb).1 (by decide)
  case doneUnlock | waitDone | waitFull | waitFullAgain | passLock =>
    exact ⟨h.1, Or.inr (hlate (hs trivial).2)⟩
  case finished => exact h
  all_goals first | exact absurd (hs trivial).1 (by decide) | cases hout

/-! ## The bits after a step -/

theorem member_update {busy : Nat → Bool}
    (hm : l.pc.member (busy w) = (worker w).pc.member (busy w)) (i : Nat) :
    (Function.update worker w l i).pc.member (busy i) = (worker i).pc.member (busy i) :=
  forall_update (P := fun i (l : Worker) => l.pc.member (busy i) = (worker i).pc.member (busy i)) hm
    (fun _ _ => rfl) i

/-- While no one is being given work, the members are expected. -/
theorem expected_iff {busy : Nat → Bool} (hno : ∀ u, (worker u).pc ≠ .giveBusy) (i : Nat) :
    Expected busy worker i ↔ (worker i).pc.member (busy i) = true := by
  unfold Expected
  constructor
  · rintro (hm | ⟨u, hu, -⟩)
    · exact hm
    · exact absurd hu (hno u)
  · exact Or.inl

/-- A step that makes no one a member. -/
theorem expected_update {busy : Nat → Bool}
    (hm : l.pc.member (busy w) = (worker w).pc.member (busy w))
    (hg : (worker w).pc ≠ .giveBusy) (hg' : l.pc ≠ .giveBusy) (i : Nat) :
    Expected busy (Function.update worker w l) i ↔ Expected busy worker i := by
  unfold Expected
  rw [member_update hm]
  refine or_congr_right (exists_congr fun u => ?_)
  by_cases hu : u = w
  · subst hu
    simp [hg, hg']
  · rw [Function.update_of_ne hu]

/-- A worker has been chosen to get work. -/
theorem expected_choose {busy : Nat → Bool}
    (hm : l.pc.member (busy w) = (worker w).pc.member (busy w))
    (hno : ∀ u, (worker u).pc ≠ .giveBusy) (hl : l.pc = .giveBusy) (i : Nat) :
    Expected busy (Function.update worker w l) i ↔ Expected busy worker i ∨ l.i = i := by
  rw [expected_iff hno, Expected, member_update hm]
  refine or_congr_right ⟨?_, fun hi => ⟨w, ?_⟩⟩
  · rintro ⟨u, hu, hi⟩
    by_cases huw : u = w
    · subst huw
      rwa [Function.update_self] at hi
    · rw [Function.update_of_ne huw] at hu
      exact absurd hu (hno u)
  · rw [Function.update_self]
    exact ⟨hl, hi⟩

/-- The chosen worker, which waits for work, has got it. -/
theorem expected_give {busy : Nat → Bool} {i : Nat} (hpc : (worker w).pc = .giveBusy)
    (hi : (worker w).i = i) (honly : ∀ u, (worker u).pc = .giveBusy → u = w) (hiw : i ≠ w)
    (hwaits : (worker i).pc = .idle ∨ (worker i).pc = .idleFree) (hl : l.pc = .giveUnlock)
    (j : Nat) :
    Expected (Function.update busy i true) (Function.update worker w l) j ↔
      Expected busy worker j := by
  have hno : ∀ u, (Function.update worker w l u).pc ≠ .giveBusy := by
    refine forall_update (P := fun _ (l : Worker) => l.pc ≠ .giveBusy) (by rw [hl]; decide) ?_
    exact fun u hu hc => hu (honly u hc)
  rw [expected_iff hno]
  by_cases hj : j = i
  · -- expected before as the chosen one, and now as a member
    subst hj
    rw [Function.update_self, Function.update_of_ne hiw]
    refine ⟨fun _ => Or.inr ⟨w, hpc, hi⟩, fun _ => ?_⟩
    rcases hwaits with hp | hp
    · rw [hp]
      rfl
    · rw [hp]
      rfl
  · rw [Function.update_of_ne hj, member_update (by rw [hl, hpc]; rfl)]
    refine ⟨Or.inl, ?_⟩
    rintro (hm | ⟨u, hu, huj⟩)
    · exact hm
    · rw [honly u hu, hi] at huj
      exact absurd huj.symm hj

/-- A step that signs nothing. -/
theorem signedAt_update (hs : SignedAt D l ↔ SignedAt D (worker w)) (i : Nat) :
    SignedAt D (Function.update worker w l i) ↔ SignedAt D (worker i) :=
  forall_update (P := fun i l => SignedAt D l ↔ SignedAt D (worker i)) hs (fun _ _ => Iff.rfl) i

/-- The number of workers that owe, after a step. -/
theorem tally_owes (l : Worker) (b b' : Bool) (hw : w < n) (hb : (worker w).pc.owes = b)
    (hb' : l.pc.owes = b') :
    tally (fun l : Worker => l.pc.owes) (Function.update worker w l) n + b.toNat =
      tally (fun l : Worker => l.pc.owes) worker n + b'.toNat := by
  subst hb hb'
  exact tally_update (fun l : Worker => l.pc.owes) worker hw l

theorem tally_owes_update (hw : w < n) (ho : l.pc.owes = (worker w).pc.owes) :
    tally (fun l : Worker => l.pc.owes) (Function.update worker w l) n =
      tally (fun l : Worker => l.pc.owes) worker n :=
  Nat.add_right_cancel (tally_owes l _ _ hw rfl ho)

end

end MulticorePrac.MultiBfs
