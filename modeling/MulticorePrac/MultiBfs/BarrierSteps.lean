import MulticorePrac.MultiBfs.Barrier

/-!
# The steps at the barrier

Every step of a worker keeps `Inv`, at the same level; the one that clears the flag of
the next level (`inv_clearFlag`) goes on to the next.  Most steps are `Quiet`: they leave
the shared variables alone, but for the mutexes, and the barrier does not see them.
-/

namespace MulticorePrac.MultiBfs

open House (Bits Problem gPow2 getLsbD_gPow2)

/-- A step from `l` to `l'` that neither makes nor ends a member, and signs nothing. -/
structure Quiet (D : Nat) (busy : Bool) (l l' : Worker) : Prop where
  member : l'.pc.member busy = l.pc.member busy
  signed : SignedAt D l' ↔ SignedAt D l
  owes : l'.pc.owes = l.pc.owes
  give : l.pc ≠ .giveBusy ∧ l'.pc ≠ .giveBusy
  clear : l.pc ≠ .clearFlag

section
variable {n D : Nat} {y : Sync} {worker : Nat → Worker} {w : Nat} {l : Worker}

/-! ## Quiet steps -/

theorem Inv.quiet (h : Inv n D y worker) (hw : w < n) (q : Quiet D (y.isBusy w) (worker w) l)
    {making doneMutex : Option Nat}
    (hm : Guarded (fun l : Worker => l.pc.inMaking = true) making (Function.update worker w l))
    (hd : Guarded (fun l : Worker => l.pc.inDone = true) doneMutex (Function.update worker w l))
    (hok : Ok n D y w l) (hfin : l.pc = .finished → ∀ u, y.isBusy u = false) :
    Inv n D { y with workerMakingMutex := making, workerDoneBitsMutex := doneMutex }
      (Function.update worker w l) where
  making := hm
  doneMutex := hd
  absent u hu := by
    rw [Function.update_of_ne (by omega)]
    exact h.absent u hu
  ok := forall_update (P := fun u l => Ok n D _ u l) hok fun u _ => h.ok u
  full i := (h.full i).trans (expected_update q.member q.give.1 q.give.2 i).symm
  done i := (h.done i).trans (signedAt_update q.signed i).symm
  free := by
    rw [tally_owes_update hw q.owes]
    exact h.free
  flag hf := by
    obtain ⟨u, hu⟩ := h.flag hf
    refine ⟨u, ?_⟩
    rw [Function.update_of_ne]
    · exact hu
    · rintro rfl
      exact q.clear hu
  lastFlag := h.lastFlag
  finished := forall_update (P := fun _ (l : Worker) => l.pc = .finished → ∀ u, y.isBusy u = false)
    hfin fun u _ => h.finished u

/-- The places that a quiet step goes from and to, when it does not change `dist`. -/
def Pc.quiet (busy : Bool) (a b : Pc) : Bool :=
  b.member busy == a.member busy && b.signed == a.signed && b.owes == a.owes &&
    a != .giveBusy && b != .giveBusy && a != .clearFlag

theorem Quiet.of_pc {busy : Bool} {l l' : Worker} {a : Pc} (ha : l.pc = a)
    (hq : a.quiet busy l'.pc = true) (hd : l'.pc.signed = true → l'.dist = l.dist) :
    Quiet D busy l l' := by
  subst ha
  simp only [Pc.quiet, Bool.and_eq_true, beq_iff_eq, bne_iff_ne] at hq
  obtain ⟨⟨⟨⟨⟨hmem, hsig⟩, howes⟩, hg⟩, hg'⟩, hc⟩ := hq
  refine ⟨hmem, ?_, howes, ⟨hg, hg'⟩, hc⟩
  unfold SignedAt
  constructor
  · rintro ⟨h1, h2⟩
    exact ⟨hsig ▸ h1, hd h1 ▸ h2⟩
  · rintro ⟨h1, h2⟩
    rw [← hsig] at h1
    exact ⟨h1, (hd h1).trans h2⟩

variable {a : Pc}

theorem Inv.stay (h : Inv n D y worker) (hw : w < n) (hpc : (worker w).pc = a)
    (hq : a.quiet (y.isBusy w) l.pc = true) (hdist : l.pc.signed = true → l.dist = (worker w).dist)
    (hm : l.pc.inMaking = a.inMaking) (hd : l.pc.inDone = a.inDone) (hok : Ok n D y w l)
    (hfin : l.pc = .finished → ∀ u, y.isBusy u = false) :
    Inv n D y (Function.update worker w l) := by
  refine h.quiet hw (Quiet.of_pc hpc hq hdist) (h.making.keep ?_) (h.doneMutex.keep ?_) hok hfin
  · rw [hm, hpc]
  · rw [hd, hpc]

theorem Inv.lock (h : Inv n D y worker) (hw : w < n) (hpc : (worker w).pc = a)
    (hq : a.quiet (y.isBusy w) l.pc = true) (hdist : l.pc.signed = true → l.dist = (worker w).dist)
    (hfree : y.workerMakingMutex = none) (hm : l.pc.inMaking = true)
    (hd : l.pc.inDone = a.inDone) (hok : Ok n D y w l) :
    Inv n D { y with workerMakingMutex := some w } (Function.update worker w l) := by
  have hnone := h.making
  rw [hfree] at hnone
  refine h.quiet hw (Quiet.of_pc hpc hq hdist) (hnone.lock hm) (h.doneMutex.keep ?_) hok ?_
  · rw [hd, hpc]
  · intro hf
    rw [hf] at hm
    cases hm

theorem Inv.unlock (h : Inv n D y worker) (hw : w < n) (q : Quiet D (y.isBusy w) (worker w) l)
    (hpc : (worker w).pc = a) (ha : a.inMaking = true) (hm : l.pc.inMaking = false)
    (hd : l.pc.inDone = a.inDone) (hok : Ok n D y w l) (hfin : l.pc ≠ .finished) :
    Inv n D { y with workerMakingMutex := none } (Function.update worker w l) := by
  subst hpc
  refine h.quiet hw q (h.making.unlock ha (by simp [hm])) (h.doneMutex.keep ?_) hok
    fun hf => absurd hf hfin
  rw [hd]

theorem Inv.lockDone (h : Inv n D y worker) (hw : w < n) (hpc : (worker w).pc = a)
    (hq : a.quiet (y.isBusy w) l.pc = true) (hdist : l.pc.signed = true → l.dist = (worker w).dist)
    (hfree : y.workerDoneBitsMutex = none) (hd : l.pc.inDone = true)
    (hm : l.pc.inMaking = a.inMaking) (hok : Ok n D y w l) (hfin : l.pc ≠ .finished) :
    Inv n D { y with workerDoneBitsMutex := some w } (Function.update worker w l) := by
  have hnone := h.doneMutex
  rw [hfree] at hnone
  refine h.quiet hw (Quiet.of_pc hpc hq hdist) (h.making.keep ?_) (hnone.lock hd) hok
    fun hf => absurd hf hfin
  rw [hm, hpc]

theorem Inv.unlockDone (h : Inv n D y worker) (hw : w < n) (hpc : (worker w).pc = a)
    (hq : a.quiet (y.isBusy w) l.pc = true) (hdist : l.pc.signed = true → l.dist = (worker w).dist)
    (ha : a.inDone = true) (hd : l.pc.inDone = false) (hm : l.pc.inMaking = a.inMaking)
    (hok : Ok n D y w l) (hfin : l.pc ≠ .finished) :
    Inv n D { y with workerDoneBitsMutex := none } (Function.update worker w l) := by
  subst hpc
  refine h.quiet hw (Quiet.of_pc rfl hq hdist) (h.making.keep ?_)
    (h.doneMutex.unlock ha (by simp [hd])) hok fun hf => absurd hf hfin
  rw [hm]

/-- What is known at the place where the worker is. -/
theorem Ok.here (h : Ok n D y w l) (hpc : l.pc = a) : Ok n D y w (l.goto a) := by
  subst hpc
  exact h

/-! ## Steps under `worker_making_mutex_` -/

theorem Pc.not_inDone_of_inMaking {pc : Pc} (h : pc.inMaking = true) : pc.inDone = false := by
  cases pc <;> first | rfl | cases h

variable {y' : Sync}

/-- A step of the worker that holds the mutex: what others know is left, by `Ok.rely`, and it
signs nothing. -/
theorem Inv.hold (h : Inv n D y worker) (hw : w < n) (hpc : (worker w).pc = a)
    (ha : a.inMaking = true) (hl : l.pc.inMaking = true)
    (hmutex : y'.workerMakingMutex = y.workerMakingMutex ∧
      y'.workerDoneBitsMutex = y.workerDoneBitsMutex)
    (habsent : ∀ u, n ≤ u → y'.isBusy u = y.isBusy u)
    (hok : Ok n D y' w l) (hother : ∀ u, u ≠ w → Ok n D y' u (worker u))
    (hfull : ∀ i, (y'.workerDoneFullBits (D % 2)).getLsbD i = true ↔
      Expected y'.isBusy (Function.update worker w l) i)
    (hdone : y'.workerDoneBits (D % 2) = y.workerDoneBits (D % 2))
    (hsigned : SignedAt D l ↔ SignedAt D (worker w))
    (hfree : tally (fun b => !b) y'.isBusy n = y'.numFreeWorkers +
      tally (fun l : Worker => l.pc.owes) (Function.update worker w l) n)
    (hflag : y'.doneBitsFlag (D % 2) = true → l.pc = .clearFlag)
    (hlast : y'.doneBitsFlag (1 - D % 2) = y.doneBitsFlag (1 - D % 2))
    (hfin : ∀ u, (worker u).pc = .finished → ∀ v, y'.isBusy v = false) :
    Inv n D y' (Function.update worker w l) where
  making := by
    rw [hmutex.1]
    exact h.making.keep (by rw [hl, hpc, ha])
  doneMutex := by
    rw [hmutex.2]
    refine h.doneMutex.keep ?_
    rw [Pc.not_inDone_of_inMaking hl, hpc, Pc.not_inDone_of_inMaking ha]
  absent u hu := by
    rw [Function.update_of_ne (by omega), habsent u hu]
    exact h.absent u hu
  ok := forall_update (P := fun u l => Ok n D y' u l) hok hother
  full := hfull
  done i := by
    rw [hdone]
    exact (h.done i).trans (signedAt_update hsigned i).symm
  free := hfree
  flag hf := ⟨w, by rw [Function.update_self]; exact hflag hf⟩
  lastFlag hD := hlast ▸ h.lastFlag hD
  finished := by
    refine forall_update (P := fun _ (l : Worker) => l.pc = .finished → ∀ u, y'.isBusy u = false)
      (fun hf => ?_) fun u _ => hfin u
    rw [hf] at hl
    cases hl

/-- The flag of the level is only set by a worker that is about to clear the next one. -/
theorem Inv.flag_false (h : Inv n D y worker) (hpc : (worker w).pc = a) (ha : a.inMaking = true)
    (hne : a ≠ .clearFlag) : y.doneBitsFlag (D % 2) = false := by
  by_contra hc
  obtain ⟨u, hu⟩ := h.flag (Bool.eq_true_of_not_eq_false hc)
  have huw : u = w := h.making.inj (by rw [hu]; rfl) (by rw [hpc]; exact ha)
  rw [huw, hpc] at hu
  exact hne hu

/-- While some worker is busy, none has ended. -/
theorem Inv.not_finished (h : Inv n D y worker) (hb : y.isBusy w = true) (u : Nat) :
    (worker u).pc ≠ .finished := by
  intro hf
  rw [h.finished u hf w] at hb
  cases hb

/-- `Inv.hold` for the steps that leave the flags and `dist` alone. -/
theorem Inv.change (h : Inv n D y worker) (hw : w < n) (hpc : (worker w).pc = a)
    (ha : a.inMaking = true) (hne : a ≠ .clearFlag) (hl : l.pc.inMaking = true)
    (hsigned : l.pc.signed = a.signed) (hdist : l.dist = (worker w).dist)
    (hmutex : y'.workerMakingMutex = y.workerMakingMutex ∧
      y'.workerDoneBitsMutex = y.workerDoneBitsMutex)
    (hflag : y'.doneBitsFlag = y.doneBitsFlag)
    (hdone : y'.workerDoneBits (D % 2) = y.workerDoneBits (D % 2))
    (hbusy : y'.isBusy = y.isBusy ∨ y.isBusy w = true ∧ ∀ u, n ≤ u → y'.isBusy u = y.isBusy u)
    (hok : Ok n D y' w l) (hother : ∀ u, u ≠ w → Ok n D y' u (worker u))
    (hfull : ∀ i, (y'.workerDoneFullBits (D % 2)).getLsbD i = true ↔
      Expected y'.isBusy (Function.update worker w l) i)
    (hfree : tally (fun b => !b) y'.isBusy n = y'.numFreeWorkers +
      tally (fun l : Worker => l.pc.owes) (Function.update worker w l) n) :
    Inv n D y' (Function.update worker w l) := by
  refine h.hold hw hpc ha hl hmutex ?_ hok hother hfull hdone ?_ hfree ?_ ?_ ?_
  · rcases hbusy with hb | hb
    · exact fun u _ => by rw [hb]
    · exact hb.2
  · rw [SignedAt, SignedAt, hsigned, hpc, hdist]
  · intro hf
    rw [hflag, h.flag_false hpc ha hne] at hf
    cases hf
  · rw [hflag]
  · rcases hbusy with hb | hb
    · rw [hb]
      exact h.finished
    · exact fun u hu => absurd hu (h.not_finished hb.1 u)

/-- A step that makes no one a member leaves the expected bits right. -/
theorem Inv.full_update (h : Inv n D y worker) (hpc : (worker w).pc = a)
    (hm : l.pc.member (y.isBusy w) = a.member (y.isBusy w)) (ha : a ≠ .giveBusy)
    (hl : l.pc ≠ .giveBusy) (i : Nat) :
    (y.workerDoneFullBits (D % 2)).getLsbD i = true ↔
      Expected y.isBusy (Function.update worker w l) i :=
  (h.full i).trans (expected_update (by rw [hpc, hm]) (by rw [hpc]; exact ha) hl i).symm

/-- A step that changes no debt leaves the count right. -/
theorem Inv.free_update (h : Inv n D y worker) (hw : w < n) (hpc : (worker w).pc = a)
    (ho : l.pc.owes = a.owes) : tally (fun b => !b) y.isBusy n =
      y.numFreeWorkers + tally (fun l : Worker => l.pc.owes) (Function.update worker w l) n := by
  rw [tally_owes_update hw (by rw [hpc, ho])]
  exact h.free

/-! ## Handing out work -/

theorem inv_giveDec (h : Inv n D y worker) (hw : w < n) (hpc : (worker w).pc = .giveDec)
    (hl : l.pc = .giveScan) (hi : l.i = 0) (hd : l.dist = (worker w).dist) :
    Inv n D { y with numFreeWorkers := y.numFreeWorkers - 1 }
      (Function.update worker w l) := by
  obtain ⟨hb, hdist, hpos⟩ : y.isBusy w = true ∧ (worker w).dist = D ∧
      0 < y.numFreeWorkers := (h.ok w).here hpc
  refine h.change hw hpc rfl nofun (by rw [hl]; rfl) (by rw [hl]; rfl) hd ⟨rfl, rfl⟩ rfl rfl
    (Or.inl rfl) ?_ (fun u hu => ?_) (fun i => ?_) ?_
  · unfold Ok
    rw [hl]
    exact ⟨hb, by rw [hd, hdist], fun k hk => by omega⟩
  · exact (h.ok u).rely (h.outside (by rw [hpc]; rfl) hu) rfl rfl rfl id fun _ => id
  · exact h.full_update hpc (by rw [hl]; rfl) nofun (by rw [hl]; decide) i
  · -- the count goes down by one, and the worker owes one
    have hfree := h.free
    have hup := tally_owes l false true hw (by rw [hpc]; rfl) (by rw [hl]; rfl)
    rw [Bool.toNat_true, Bool.toNat_false] at hup
    show tally _ y.isBusy n = y.numFreeWorkers - 1 + _
    omega

theorem Inv.no_target (h : Inv n D y worker) (hpc : (worker w).pc = a) (ha : a.inMaking = true)
    (hne : a ≠ .giveBusy) (u : Nat) : (worker u).pc ≠ .giveBusy := by
  intro hu
  have huw : u = w := h.making.inj (by rw [hu]; rfl) (by rw [hpc]; exact ha)
  rw [huw, hpc] at hu
  exact hne hu

/-- The worker that is given work waits for it. -/
theorem Inv.target_waits (h : Inv n D y worker) (hpc : (worker w).pc.inMaking = true)
    (hb : y.isBusy w = true) {i : Nat} (hi : y.isBusy i = false) :
    i ≠ w ∧ ((worker i).pc = .idle ∨ (worker i).pc = .idleFree) := by
  have hne : i ≠ w := by
    rintro rfl
    rw [hi] at hb
    cases hb
  refine ⟨hne, ?_⟩
  rcases (h.ok i).waits_of_free (h.outside hpc hne) hi with hp | hp | hp
  · exact Or.inl hp
  · exact Or.inr hp
  · exact absurd hp (h.not_finished hb i)

/-- A worker that waits for work knows about its start only when it is busy. -/
theorem ok_waiting {u : Nat} (hpc : l.pc = .idle ∨ l.pc = .idleFree)
    (h : y.isBusy u = true → y.startDist u = D) : Ok n D y u l := by
  unfold Ok
  rcases hpc with hpc | hpc
  · rw [hpc]
    exact h
  · rw [hpc]
    exact h

theorem inv_giveParam (h : Inv n D y worker) (hw : w < n)
    (hpc : (worker w).pc = .giveParam) :
    Inv n D { y with
        startVertex := Function.update y.startVertex (worker w).i (worker w).lastVertex
        startDist := Function.update y.startDist (worker w).i (worker w).dist }
      (Function.update worker w ((worker w).goto .giveFull)) := by
  obtain ⟨hb, hdist, hi, hfree⟩ : y.isBusy w = true ∧ (worker w).dist = D ∧
      (worker w).i < n ∧ y.isBusy (worker w).i = false := (h.ok w).here hpc
  have hin : (worker w).pc.inMaking = true := by rw [hpc]; rfl
  refine h.change hw hpc rfl nofun rfl rfl rfl ⟨rfl, rfl⟩ rfl rfl (Or.inl rfl) ?_ (fun u hu => ?_)
    (fun i => ?_) ?_
  · refine ⟨hb, hdist, hi, hfree, Function.update_self .., ?_⟩
    exact (Function.update_self ..).trans hdist
  · by_cases hui : u = (worker w).i
    · subst hui
      refine ok_waiting (h.target_waits hin hb hfree).2 fun hbusy => ?_
      exact absurd hbusy (by rw [hfree]; decide)
    · exact (h.ok u).rely (h.outside hin hu) rfl (Function.update_of_ne hui ..) rfl id fun _ => id
  · exact h.full_update hpc rfl nofun (by nofun) i
  · exact h.free_update hw hpc rfl

theorem inv_giveFull (h : Inv n D y worker) (hn : n ≤ 64) (hw : w < n)
    (hpc : (worker w).pc = .giveFull) :
    Inv n D { y with
        workerDoneFullBits := Function.update y.workerDoneFullBits ((worker w).dist % 2)
          (y.workerDoneFullBits ((worker w).dist % 2) ||| gPow2 (worker w).i) }
      (Function.update worker w ((worker w).goto .giveBusy)) := by
  have hok := (h.ok w).here hpc
  have hdist : (worker w).dist = D := hok.2.1
  have hi : (worker w).i < n := hok.2.2.1
  have hin : (worker w).pc.inMaking = true := by rw [hpc]; rfl
  rw [hdist]
  refine h.change hw hpc rfl nofun rfl rfl rfl ⟨rfl, rfl⟩ rfl rfl (Or.inl rfl) hok (fun u hu => ?_)
    (fun i => ?_) ?_
  · -- the worker itself has not signed, so that no one relies on the expected bits
    refine (h.ok u).rely (h.outside hin hu) rfl rfl rfl (fun hc => ?_) fun _ hlate => ?_
    · exact absurd hc (h.not_covered (u := w) (by rw [hpc]; rfl) (by rw [hpc]; rfl))
    · refine hlate.mono (fun j hj => ?_) rfl
      dsimp only at hj
      rwa [Function.update_of_ne (by omega)] at hj
  · show (Function.update y.workerDoneFullBits (D % 2) _ (D % 2)).getLsbD i = true ↔ _
    rw [Function.update_self, BitVec.getLsbD_or, Bool.or_eq_true, h.full i, getLsbD_gPow2,
      expected_choose (by rw [hpc]; rfl) (h.no_target hpc rfl nofun) rfl]
    refine or_congr_right ?_
    simp only [Bool.and_eq_true, decide_eq_true_eq]
    exact ⟨fun hij => hij.2, fun hij => ⟨by subst hij; exact Nat.lt_of_lt_of_le hi hn, hij⟩⟩
  · exact h.free_update hw hpc rfl

theorem inv_giveBusy (h : Inv n D y worker) (hw : w < n) (hpc : (worker w).pc = .giveBusy) :
    Inv n D { y with isBusy := Function.update y.isBusy (worker w).i true }
      (Function.update worker w ((worker w).goto .giveUnlock)) := by
  obtain ⟨hb, hdist, hi, hfree, -, hstart⟩ : y.isBusy w = true ∧ (worker w).dist = D ∧
      (worker w).i < n ∧ y.isBusy (worker w).i = false ∧
      y.startVertex (worker w).i = (worker w).lastVertex ∧ y.startDist (worker w).i = D :=
    (h.ok w).here hpc
  have hin : (worker w).pc.inMaking = true := by rw [hpc]; rfl
  obtain ⟨hiw, hwaits⟩ := h.target_waits hin hb hfree
  refine h.change hw hpc rfl nofun rfl rfl rfl ⟨rfl, rfl⟩ rfl rfl
    (Or.inr ⟨hb, fun u hu => Function.update_of_ne (by omega) ..⟩) ?_ (fun u hu => ?_)
    (fun j => ?_) ?_
  · exact ⟨(Function.update_of_ne hiw.symm ..).trans hb, hdist⟩
  · by_cases hui : u = (worker w).i
    · subst hui
      exact ok_waiting hwaits fun _ => hstart
    · exact (h.ok u).rely (h.outside hin hu) (Function.update_of_ne hui ..) rfl rfl id fun _ => id
  · refine (h.full j).trans (expected_give hpc rfl (fun u hu => ?_) hiw hwaits rfl j).symm
    exact h.making.inj (by rw [hu]; rfl) hin
  · have hup := tally_owes ((worker w).goto .giveUnlock) true false hw (by rw [hpc]; rfl) rfl
    have hbusy := tally_update (fun b => !b) y.isBusy hi true
    rw [hfree] at hbusy
    have htally := h.free
    simp only [Bool.not_true, Bool.not_false, Bool.toNat_true, Bool.toNat_false] at hup hbusy
    show tally _ (Function.update y.isBusy (worker w).i true) n = y.numFreeWorkers + _
    omega

/-! ## The end of the level -/

/-- Signing the level: the bits that were loaded are still the current ones. -/
theorem inv_doneStore (h : Inv n D y worker) (hn : n ≤ 64) (hw : w < n)
    (hpc : (worker w).pc = .doneStore) :
    Inv n D { y with
        workerDoneBits := Function.update y.workerDoneBits ((worker w).dist % 2)
          ((worker w).bits ||| gPow2 w) }
      (Function.update worker w ((worker w).goto .doneUnlock)) := by
  obtain ⟨hb, hdist, hbits⟩ : y.isBusy w = true ∧ (worker w).dist = D ∧
      (worker w).bits = y.workerDoneBits (D % 2) := (h.ok w).here hpc
  rw [hdist, hbits]
  have hbit : ∀ i, (y.workerDoneBits (D % 2) ||| gPow2 w).getLsbD i = true ↔
      (y.workerDoneBits (D % 2)).getLsbD i = true ∨ w = i := by
    intro i
    rw [BitVec.getLsbD_or, Bool.or_eq_true, getLsbD_gPow2]
    simp only [Bool.and_eq_true, decide_eq_true_eq]
    refine or_congr_right ⟨fun hi => hi.2, fun hi => ⟨?_, hi⟩⟩
    omega
  exact {
    making := h.making.keep (by rw [hpc]; exact Iff.rfl)
    doneMutex := h.doneMutex.keep (by rw [hpc]; exact Iff.rfl)
    absent := fun u hu => by
      rw [Function.update_of_ne (by omega)]
      exact h.absent u hu
    ok := by
      refine forall_update (P := fun u l => Ok n D _ u l) ⟨hb, Or.inl hdist⟩ fun u hu => ?_
      refine (h.ok u).rely_signing ?_ fun i hi => (hbit i).mpr (Or.inl hi)
      by_contra hc
      exact hu (h.doneMutex.inj (Bool.eq_true_of_not_eq_false hc) (by rw [hpc]; rfl))
    full := h.full_update hpc rfl nofun nofun
    done := fun i => by
      show (Function.update y.workerDoneBits (D % 2) _ (D % 2)).getLsbD i = true ↔ _
      rw [Function.update_self, hbit, h.done]
      by_cases hi : i = w
      · subst hi
        rw [Function.update_self]
        exact ⟨fun _ => ⟨rfl, hdist⟩, fun _ => Or.inr rfl⟩
      · rw [Function.update_of_ne hi]
        exact or_iff_left (Ne.symm hi)
    free := h.free_update hw hpc rfl
    flag := fun hf => by
      obtain ⟨u, hu⟩ := h.flag hf
      refine ⟨u, ?_⟩
      rw [Function.update_of_ne]
      · exact hu
      · rintro rfl
        rw [hpc] at hu
        cases hu
    lastFlag := h.lastFlag
    finished := by
      refine forall_update (P := fun _ (l : Worker) => l.pc = .finished → ∀ u, y.isBusy u = false)
        nofun fun u _ => h.finished u }

/-- The done bits of the next level: no one is late, so no one reads the old ones. -/
theorem inv_resetDone (h : Inv n D y worker) (hw : w < n) (hpc : (worker w).pc = .resetDone) :
    Inv n D { y with
        workerDoneBits := Function.update y.workerDoneBits (1 - (worker w).dist % 2) 0 }
      (Function.update worker w ((worker w).goto .copyFull)) := by
  obtain ⟨hb, hdist, hc⟩ : y.isBusy w = true ∧ (worker w).dist = D ∧ Covered y D :=
    (h.ok w).here hpc
  have hne : D % 2 ≠ 1 - D % 2 := by omega
  have hdone : Function.update y.workerDoneBits (1 - D % 2) 0 (D % 2) = y.workerDoneBits (D % 2) :=
    Function.update_of_ne hne ..
  rw [hdist]
  have hc' : Covered { y with
      workerDoneBits := Function.update y.workerDoneBits (1 - D % 2) 0 } D :=
    hc.mono (fun _ hi => hi) hdone
  refine h.change hw hpc rfl nofun rfl rfl rfl ⟨rfl, rfl⟩ rfl hdone (Or.inl rfl) ?_ (fun u hu => ?_)
    (fun i => ?_) ?_
  · exact ⟨hb, hdist, hc', Function.update_self ..⟩
  · refine (h.ok u).rely (h.outside (by rw [hpc]; rfl) hu) rfl rfl hdone (fun _ => hc') ?_
    exact fun hs hlate => absurd hlate.1 (h.not_late hc hs)
  · exact h.full_update hpc rfl nofun (by nofun) i
  · exact h.free_update hw hpc rfl

/-- The expected bits of the next level. -/
theorem inv_copyFull (h : Inv n D y worker) (hw : w < n) (hpc : (worker w).pc = .copyFull) :
    Inv n D { y with
        workerDoneFullBits := Function.update y.workerDoneFullBits (1 - (worker w).dist % 2)
          (y.workerDoneFullBits ((worker w).dist % 2)) }
      (Function.update worker w ((worker w).goto .setFlag)) := by
  obtain ⟨hb, hdist, hc, hzero⟩ : y.isBusy w = true ∧ (worker w).dist = D ∧ Covered y D ∧
      y.workerDoneBits (1 - D % 2) = 0 := (h.ok w).here hpc
  have hne : D % 2 ≠ 1 - D % 2 := by omega
  rw [hdist]
  have hfull : Function.update y.workerDoneFullBits (1 - D % 2) (y.workerDoneFullBits (D % 2))
      (D % 2) = y.workerDoneFullBits (D % 2) := Function.update_of_ne hne ..
  have hc' : Covered { y with
      workerDoneFullBits := Function.update y.workerDoneFullBits (1 - D % 2)
        (y.workerDoneFullBits (D % 2)) } D :=
    hc.mono (fun i hi => hfull ▸ hi) rfl
  refine h.change hw hpc rfl nofun rfl rfl rfl ⟨rfl, rfl⟩ rfl rfl (Or.inl rfl) ?_ (fun u hu => ?_)
    (fun i => ?_) ?_
  · exact ⟨hb, hdist, hc', hzero, (Function.update_self ..).trans hfull.symm⟩
  · refine (h.ok u).rely (h.outside (by rw [hpc]; rfl) hu) rfl rfl rfl (fun _ => hc') ?_
    exact fun hs hlate => absurd hlate.1 (h.not_late hc hs)
  · show (Function.update y.workerDoneFullBits (1 - D % 2) _ (D % 2)).getLsbD i = true ↔ _
    rw [hfull]
    exact h.full_update hpc rfl nofun (by nofun) i
  · exact h.free_update hw hpc rfl

theorem inv_setFlag (h : Inv n D y worker) (hw : w < n) (hpc : (worker w).pc = .setFlag) :
    Inv n D { y with doneBitsFlag := Function.update y.doneBitsFlag ((worker w).dist % 2) true }
      (Function.update worker w ((worker w).goto .clearFlag)) := by
  obtain ⟨hb, hdist, hc, hzero, hfull⟩ : y.isBusy w = true ∧ (worker w).dist = D ∧ Covered y D ∧
      y.workerDoneBits (1 - D % 2) = 0 ∧
      y.workerDoneFullBits (1 - D % 2) = y.workerDoneFullBits (D % 2) := (h.ok w).here hpc
  have hne : 1 - D % 2 ≠ D % 2 := by omega
  rw [hdist]
  refine h.hold hw hpc rfl rfl ⟨rfl, rfl⟩ (fun _ _ => rfl) ?_ (fun u hu => ?_) (fun i => ?_) rfl ?_
    ?_ (fun _ => rfl) (Function.update_of_ne hne ..) h.finished
  · exact ⟨hb, hdist, hc, hzero, hfull, Function.update_self ..⟩
  · exact (h.ok u).rely (h.outside (by rw [hpc]; rfl) hu) rfl rfl rfl id fun _ => id
  · exact h.full_update hpc rfl nofun (by nofun) i
  · simp [SignedAt, hpc, Worker.goto, Pc.signed]
  · exact h.free_update hw hpc rfl

/-- The next level begins.  Whoever is a member has signed the level that ends. -/
theorem inv_clearFlag (h : Inv n D y worker) (hw : w < n) (hpc : (worker w).pc = .clearFlag) :
    Inv n (D + 1)
      { y with doneBitsFlag := Function.update y.doneBitsFlag (1 - (worker w).dist % 2) false }
      (Function.update worker w ((worker w).goto .passUnlock)) := by
  obtain ⟨hb, hdist, hc, hzero, hfull, hflag⟩ : y.isBusy w = true ∧ (worker w).dist = D ∧
      Covered y D ∧ y.workerDoneBits (1 - D % 2) = 0 ∧
      y.workerDoneFullBits (1 - D % 2) = y.workerDoneFullBits (D % 2) ∧
      y.doneBitsFlag (D % 2) = true := (h.ok w).here hpc
  have hne : D % 2 ≠ 1 - D % 2 := by omega
  have hpar : 1 - (D + 1) % 2 = D % 2 := by omega
  rw [hdist]
  have hok : ∀ u, Ok n (D + 1)
      { y with doneBitsFlag := Function.update y.doneBitsFlag (1 - D % 2) false } u
      (Function.update worker w ((worker w).goto .passUnlock) u) := by
    refine forall_update (P := fun u l => Ok n (D + 1) _ u l) ?_ fun u hu => ?_
    · refine ⟨hb, congrArg (· + 1) hdist, ?_⟩
      show Covered y (worker w).dist
      rw [hdist]
      exact hc
    · exact (h.ok u).advance (h.outside (by rw [hpc]; rfl) hu) hc (h.signed_of_covered hc) _
  have hold : ∀ u, (Function.update worker w ((worker w).goto .passUnlock) u).pc.signed = true →
      (Function.update worker w ((worker w).goto .passUnlock) u).dist = D := by
    refine forall_update (P := fun _ (l : Worker) => l.pc.signed = true → l.dist = D)
      (fun _ => hdist) fun u _ hs => ?_
    exact (h.signed_of_covered hc (Pc.member_of_signed _ hs)).2
  exact {
    making := h.making.keep (by rw [hpc]; exact Iff.rfl)
    doneMutex := h.doneMutex.keep (by rw [hpc]; exact Iff.rfl)
    absent := fun u hu => by
      rw [Function.update_of_ne (by omega)]
      exact h.absent u hu
    ok := hok
    full := fun i => by
      show (y.workerDoneFullBits ((D + 1) % 2)).getLsbD i = true ↔ _
      rw [other_parity, hfull]
      exact h.full_update hpc rfl nofun (by nofun) i
    done := fun i => by
      show (y.workerDoneBits ((D + 1) % 2)).getLsbD i = true ↔ _
      rw [other_parity, hzero]
      refine ⟨fun hi => by simp at hi, fun hi => ?_⟩
      have := hold i hi.1
      have := hi.2
      omega
    free := h.free_update hw hpc rfl
    flag := fun hf => by
      have hf' : Function.update y.doneBitsFlag (1 - D % 2) false ((D + 1) % 2) = true := hf
      rw [other_parity, Function.update_self] at hf'
      cases hf'
    lastFlag := fun _ => by
      show Function.update y.doneBitsFlag (1 - D % 2) false (1 - (D + 1) % 2) = true
      rw [hpar, Function.update_of_ne hne]
      exact hflag
    finished := by
      refine forall_update (P := fun _ (l : Worker) => l.pc = .finished → ∀ u, y.isBusy u = false)
        nofun fun u _ => h.finished u }

/-! ## Leaving -/

theorem getLsbD_remover (w i : Nat) :
    (remover w).getLsbD i = (decide (i < 64) && !decide (w = i)) := by
  have h : remover w = ~~~gPow2 w := by
    unfold remover
    exact BitVec.allOnes_sub_eq_not (gPow2 w)
  rw [h, BitVec.getLsbD_not, getLsbD_gPow2]
  by_cases hi : i < 64
  · simp [hi]
  · simp [hi]

theorem getLsbD_and_remover (b : Bits) (w i : Nat) :
    (b &&& remover w).getLsbD i = true ↔ b.getLsbD i = true ∧ w ≠ i := by
  rw [BitVec.getLsbD_and, getLsbD_remover]
  simp only [Bool.and_eq_true, decide_eq_true_eq, Bool.not_eq_true', decide_eq_false_iff_not]
  refine ⟨fun h => ⟨h.1, h.2.2⟩, fun h => ⟨h.1, ?_, h.2⟩⟩
  exact BitVec.lt_of_getLsbD h.1

theorem inv_leaveFull (h : Inv n D y worker) (hw : w < n) (hpc : (worker w).pc = .leaveFull) :
    Inv n D { y with
        workerDoneFullBits := Function.update y.workerDoneFullBits ((worker w).dist % 2)
          (y.workerDoneFullBits ((worker w).dist % 2) &&& remover w) }
      (Function.update worker w ((worker w).goto .leaveNext)) := by
  have hok := (h.ok w).here hpc
  have hdist : (worker w).dist = D := hok.2
  have hno := h.no_target hpc rfl nofun
  rw [hdist]
  refine h.change hw hpc rfl nofun rfl rfl rfl ⟨rfl, rfl⟩ rfl rfl (Or.inl rfl) hok (fun u hu => ?_)
    (fun i => ?_) ?_
  · refine (h.ok u).rely (h.outside (by rw [hpc]; rfl) hu) rfl rfl rfl (fun hc => ?_)
      fun _ hlate => ?_
    · refine hc.mono (fun i hi => ?_) rfl
      dsimp only at hi
      rw [Function.update_self] at hi
      exact ((getLsbD_and_remover _ _ _).mp hi).1
    · refine hlate.mono (fun i hi => ?_) rfl
      dsimp only at hi
      rwa [Function.update_of_ne (by omega)] at hi
  · show (Function.update y.workerDoneFullBits (D % 2) _ (D % 2)).getLsbD i = true ↔ _
    have hno' : ∀ u, (Function.update worker w ((worker w).goto .leaveNext) u).pc ≠ .giveBusy :=
      forall_update (P := fun _ (l : Worker) => l.pc ≠ .giveBusy) nofun fun u _ => hno u
    rw [Function.update_self, getLsbD_and_remover, h.full, expected_iff hno, expected_iff hno']
    by_cases hi : i = w
    · subst hi
      rw [Function.update_self]
      exact ⟨fun hm => absurd rfl hm.2, nofun⟩
    · rw [Function.update_of_ne hi]
      exact and_iff_left (Ne.symm hi)
  · exact h.free_update hw hpc rfl

theorem inv_leaveNext (h : Inv n D y worker) (hw : w < n) (hpc : (worker w).pc = .leaveNext) :
    Inv n D { y with
        workerDoneFullBits := Function.update y.workerDoneFullBits (1 - (worker w).dist % 2)
          (y.workerDoneFullBits (1 - (worker w).dist % 2) &&& remover w) }
      (Function.update worker w ((worker w).goto .leaveBusy)) := by
  obtain ⟨hb, hdist⟩ : y.isBusy w = true ∧ (worker w).dist = D := (h.ok w).here hpc
  have hne : D % 2 ≠ 1 - D % 2 := by omega
  rw [hdist]
  refine h.change hw hpc rfl nofun rfl rfl rfl ⟨rfl, rfl⟩ rfl rfl (Or.inl rfl) hb (fun u hu => ?_)
    (fun i => ?_) ?_
  · refine (h.ok u).rely (h.outside (by rw [hpc]; rfl) hu) rfl rfl rfl (fun hc => ?_)
      fun _ hlate => ?_
    · refine hc.mono (fun i hi => ?_) rfl
      dsimp only at hi
      rwa [Function.update_of_ne hne] at hi
    · refine hlate.mono (fun i hi => ?_) rfl
      dsimp only at hi
      rw [Function.update_self] at hi
      exact ((getLsbD_and_remover _ _ _).mp hi).1
  · show (Function.update y.workerDoneFullBits (1 - D % 2) _ (D % 2)).getLsbD i = true ↔ _
    rw [Function.update_of_ne hne]
    exact h.full_update hpc rfl nofun (by nofun) i
  · exact h.free_update hw hpc rfl

theorem inv_leaveBusy (h : Inv n D y worker) (hw : w < n) (hpc : (worker w).pc = .leaveBusy) :
    Inv n D { y with isBusy := Function.update y.isBusy w false }
      (Function.update worker w ((worker w).goto .leaveFree)) := by
  have hb : y.isBusy w = true := (h.ok w).here hpc
  have hno := h.no_target hpc rfl nofun
  refine h.change hw hpc rfl nofun rfl rfl rfl ⟨rfl, rfl⟩ rfl rfl
    (Or.inr ⟨hb, fun u hu => Function.update_of_ne (by omega) ..⟩) (Function.update_self ..)
    (fun u hu => ?_) (fun i => ?_) ?_
  · exact (h.ok u).rely (h.outside (by rw [hpc]; rfl) hu) (Function.update_of_ne hu ..) rfl rfl id
      fun _ => id
  · have hno' : ∀ u, (Function.update worker w ((worker w).goto .leaveFree) u).pc ≠ .giveBusy :=
      forall_update (P := fun _ (l : Worker) => l.pc ≠ .giveBusy) nofun fun u _ => hno u
    rw [h.full, expected_iff hno, expected_iff hno']
    by_cases hi : i = w
    · subst hi
      rw [Function.update_self, hpc]
      exact Iff.rfl
    · dsimp only
      rw [Function.update_of_ne hi, Function.update_of_ne hi]
  · have hup := tally_owes ((worker w).goto .leaveFree) false true hw (by rw [hpc]; rfl) rfl
    have hbusy := tally_update (fun b => !b) y.isBusy hw false
    rw [hb] at hbusy
    have hfree := h.free
    simp only [Bool.not_true, Bool.not_false, Bool.toNat_true, Bool.toNat_false] at hup hbusy
    show tally _ (Function.update y.isBusy w false) n = y.numFreeWorkers + _
    omega

theorem inv_leaveFree (h : Inv n D y worker) (hw : w < n) (hpc : (worker w).pc = .leaveFree) :
    Inv n D { y with numFreeWorkers := y.numFreeWorkers + 1 }
      (Function.update worker w ((worker w).goto .leaveUnlock)) := by
  refine h.change hw hpc rfl nofun rfl rfl rfl ⟨rfl, rfl⟩ rfl rfl (Or.inl rfl) ((h.ok w).here hpc)
    (fun u hu => ?_) (fun i => ?_) ?_
  · exact (h.ok u).rely (h.outside (by rw [hpc]; rfl) hu) rfl rfl rfl id fun _ => id
  · exact h.full_update hpc rfl nofun (by nofun) i
  · have hup := tally_owes ((worker w).goto .leaveUnlock) true false hw (by rw [hpc]; rfl) rfl
    have hfree := h.free
    simp only [Bool.toNat_true, Bool.toNat_false] at hup
    show tally _ y.isBusy n = y.numFreeWorkers + 1 + _
    omega

end

/-! ## Waiting for work, and the head of the level loop -/

section
variable {p : Problem} {start n D : Nat} {s s' : St} {w : Nat}

/-- All workers are free when `num_free_workers_` says so. -/
theorem Inv.all_free (h : Inv n D s.sync s.worker) (hn : s.sync.numFreeWorkers = n) (u : Nat) :
    s.sync.isBusy u = false := by
  by_cases hu : u < n
  · have hfree := h.free
    have hsum := tally_add_not (fun b => b) s.sync.isBusy n
    have hzero : tally (fun b => b) s.sync.isBusy n = 0 := by omega
    exact tally_eq_zero.mp hzero u hu
  · exact (h.absent u (by omega)).2

theorem inv_idle (h : Inv n D s.sync s.worker) (hw : w < n) (hs : idleStep n s w = some s') :
    Inv n D s'.sync s'.worker := by
  unfold idleStep at hs
  cases hpc : (s.worker w).pc <;> simp only [hpc] at hs
  case idle =>
    have hok := (h.ok w).here hpc
    split at hs <;> cases hs
    · next hb => exact h.stay hw hpc (by rw [hb]; rfl) nofun rfl rfl ⟨hb, hok hb⟩ nofun
    · exact h.stay hw hpc (by cases s.sync.isBusy w <;> rfl) nofun rfl rfl hok nofun
  case idleFree =>
    have hok := (h.ok w).here hpc
    split at hs <;> cases hs
    · next hn =>
      have hfree := h.all_free hn
      exact h.stay hw hpc (by rw [hfree w]; rfl) nofun rfl rfl (hfree w) fun _ => hfree
    · exact h.stay hw hpc (by cases s.sync.isBusy w <;> rfl) nofun rfl rfl hok nofun
  case load =>
    cases hs
    exact h.stay hw hpc rfl nofun rfl rfl ((h.ok w).here hpc) nofun
  all_goals cases hs

theorem inv_level (h : Inv n D s.sync s.worker) (hw : w < n) (hpc : (s.worker w).pc = .levelTest)
    (hs : levelStep p start s w = some s') : Inv n D s'.sync s'.worker := by
  have hok := (h.ok w).here hpc
  unfold levelStep at hs
  dsimp only at hs
  split at hs <;> cases hs
  · exact h.stay hw hpc rfl nofun rfl rfl hok nofun
  · exact h.stay hw hpc rfl nofun rfl rfl hok nofun

/-- The scan finds a worker: one that is free is still owed. -/
theorem Inv.scan_lt (h : Inv n D s.sync s.worker) (hw : w < n) (hpc : (s.worker w).pc = .giveScan) :
    (s.worker w).i < n := by
  have hbusy : ∀ k < (s.worker w).i, s.sync.isBusy k = true := ((h.ok w).here hpc).2.2
  by_contra hge
  have hzero : tally (fun b => !b) s.sync.isBusy n = 0 := by
    refine tally_eq_zero.mpr fun k hk => ?_
    rw [hbusy k (by omega)]
    rfl
  have howes : tally (fun l : Worker => l.pc.owes) s.worker n = 0 := by
    have := h.free
    omega
  have hnot := tally_eq_zero.mp howes w hw
  rw [hpc] at hnot
  cases hnot

theorem inv_give (h : Inv n D s.sync s.worker) (hn : n ≤ 64) (hw : w < n)
    (hs : giveStep n s w = some s') : Inv n D s'.sync s'.worker := by
  unfold giveStep at hs
  cases hpc : (s.worker w).pc <;> have hok := (h.ok w).here hpc <;> simp only [hpc] at hs
  case giveTest =>
    split at hs <;> cases hs
    · exact h.stay hw hpc rfl nofun rfl rfl hok nofun
    · exact h.stay hw hpc rfl nofun rfl rfl hok nofun
  case giveLock =>
    split at hs <;> cases hs
    next hfree => exact h.lock hw hpc rfl nofun hfree rfl rfl hok
  case giveCheck =>
    split at hs <;> cases hs
    · exact h.stay hw hpc rfl nofun rfl rfl hok nofun
    · next hpos =>
      exact h.stay hw hpc rfl nofun rfl rfl ⟨hok.1, hok.2, Nat.pos_of_ne_zero hpos⟩ nofun
  case giveBreak =>
    cases hs
    exact h.unlock hw (Quiet.of_pc hpc rfl nofun) hpc rfl rfl rfl hok nofun
  case giveDec =>
    cases hs
    exact inv_giveDec h hw hpc rfl rfl rfl
  case giveScan =>
    obtain ⟨hb, hdist, hbusy⟩ : s.sync.isBusy w = true ∧ (s.worker w).dist = D ∧
      ∀ k < (s.worker w).i, s.sync.isBusy k = true := hok
    rw [if_pos (h.scan_lt hw hpc)] at hs
    split at hs <;> cases hs
    · next hi =>
      refine h.stay hw hpc rfl nofun rfl rfl ⟨hb, hdist, fun k hk => ?_⟩ nofun
      by_cases hki : k = (s.worker w).i
      · rw [hki]
        exact hi
      · exact hbusy k (Nat.lt_of_le_of_ne (Nat.le_of_lt_succ hk) hki)
    · next hi =>
      have hfree := Bool.eq_false_of_not_eq_true hi
      exact h.stay hw hpc rfl nofun rfl rfl ⟨hb, hdist, h.scan_lt hw hpc, hfree⟩ nofun
  case giveParam =>
    cases hs
    exact inv_giveParam h hw hpc
  case giveFull =>
    cases hs
    exact inv_giveFull h hn hw hpc
  case giveBusy =>
    cases hs
    exact inv_giveBusy h hw hpc
  case giveUnlock =>
    cases hs
    exact h.unlock hw (Quiet.of_pc hpc rfl nofun) hpc rfl rfl rfl hok nofun
  all_goals cases hs

/-! ## Visiting -/

theorem inv_visit (h : Inv n D s.sync s.worker) (hw : w < n) (hs : visitStep p s w = some s') :
    Inv n D s'.sync s'.worker := by
  unfold visitStep at hs
  cases hpc : (s.worker w).pc <;> have hok := (h.ok w).here hpc <;> simp only [hpc] at hs
  case visit =>
    split at hs
    · split at hs <;> cases hs
      · exact h.stay hw hpc rfl nofun rfl rfl hok nofun
      · exact h.stay hw hpc rfl nofun rfl rfl hok nofun
    · cases hs
      exact h.stay hw hpc rfl nofun rfl rfl hok nofun
    · cases hs
      exact h.stay hw hpc rfl nofun rfl rfl hok nofun
  case mark =>
    cases hs
    cases hh : p.context.houseBitmap (s.worker w).v
    · exact h.stay hw hpc rfl nofun rfl rfl hok nofun
    · exact h.stay hw hpc rfl nofun rfl rfl hok nofun
  case update =>
    cases hs
    exact h.stay hw hpc rfl nofun rfl rfl hok nofun
  case setBits =>
    cases hs
    exact h.stay hw hpc rfl nofun rfl rfl hok nofun
  all_goals cases hs

/-! ## The barrier and the end -/

/-- A worker that finds the flag set is late, and one that finds it clear is not. -/
theorem Inv.flag_iff_late (h : Inv n D s.sync s.worker) (hpc : (s.worker w).pc = .passTest) :
    s.sync.doneBitsFlag ((s.worker w).dist % 2) = true ↔ Late D s.sync (s.worker w) := by
  obtain ⟨-, hd⟩ : s.sync.isBusy w = true ∧
      (((s.worker w).dist = D ∧ Covered s.sync D) ∨ Late D s.sync (s.worker w)) := (h.ok w).here hpc
  have hclear := h.flag_false hpc rfl nofun
  constructor
  · intro hf
    rcases hd with ⟨hdist, -⟩ | hlate
    · rw [hdist, hclear] at hf
      cases hf
    · exact hlate
  · intro hlate
    rw [hlate.parity]
    exact h.lastFlag (by have := hlate.1; omega)

theorem inv_wait (h : Inv n D s.sync s.worker) (hw : w < n) (hs : barrierStep s w = some s')
    (hpc : (s.worker w).pc = .waitDone ∨ (s.worker w).pc = .waitFull ∨
      (s.worker w).pc = .waitFullAgain) : Inv n D s'.sync s'.worker := by
  unfold barrierStep at hs
  rcases hpc with hpc | hpc | hpc <;> have hok := (h.ok w).here hpc <;> simp only [hpc] at hs
  · -- loading the done bits
    obtain ⟨hb, hd⟩ : s.sync.isBusy w = true ∧
      ((s.worker w).dist = D ∨ Late D s.sync (s.worker w)) := hok
    cases hs
    refine h.stay hw hpc rfl (fun _ => rfl) rfl rfl ⟨hb, hd.imp (fun hdist => ⟨hdist, ?_⟩) id⟩ nofun
    intro i hi
    rwa [← hdist]
  · -- loading the expected bits, for the first time
    obtain ⟨hb, hd⟩ : s.sync.isBusy w = true ∧ (((s.worker w).dist = D ∧
      ∀ i, (s.worker w).bits.getLsbD i = true → (s.sync.workerDoneBits (D % 2)).getLsbD i = true) ∨
      Late D s.sync (s.worker w)) := hok
    cases hs
    refine h.stay hw hpc rfl (fun _ => rfl) rfl rfl
      ⟨hb, hd.imp (fun hdist => ⟨hdist.1, fun i hi => hdist.2 i ?_⟩) id⟩ nofun
    rw [BitVec.getLsbD_and, Bool.and_eq_true] at hi
    exact hi.1
  · obtain ⟨hb, hd⟩ : s.sync.isBusy w = true ∧ (((s.worker w).dist = D ∧
      ∀ i, (s.worker w).bits.getLsbD i = true → (s.sync.workerDoneBits (D % 2)).getLsbD i = true) ∨
      Late D s.sync (s.worker w)) := hok
    split at hs <;> cases hs
    · exact h.stay hw hpc rfl (fun _ => rfl) rfl rfl ⟨hb, hd.imp And.left id⟩ nofun
    · -- the bits are the expected ones, and all of them are done bits
      next heq =>
      have heq' : (s.worker w).bits = s.sync.workerDoneFullBits ((s.worker w).dist % 2) :=
        Classical.not_not.mp heq
      refine h.stay hw hpc rfl (fun _ => rfl) rfl rfl
        ⟨hb, hd.imp (fun hdist => ⟨hdist.1, fun i hi => ?_⟩) id⟩ nofun
      rw [hdist.1] at heq'
      rw [← heq'] at hi
      exact hdist.2 i hi

/-- The level after a step of worker `w`. -/
def levelAfter (D : Nat) (l : Worker) : Nat := if l.pc = .clearFlag then D + 1 else D

theorem inv_barrier (h : Inv n D s.sync s.worker) (hn : n ≤ 64) (hw : w < n)
    (hs : barrierStep s w = some s') : Inv n (levelAfter D (s.worker w)) s'.sync s'.worker := by
  unfold levelAfter
  cases hpc : (s.worker w).pc <;> simp only [reduceCtorEq, if_false, if_true]
  case waitDone => exact inv_wait h hw hs (Or.inl hpc)
  case waitFull => exact inv_wait h hw hs (Or.inr (Or.inl hpc))
  case waitFullAgain => exact inv_wait h hw hs (Or.inr (Or.inr hpc))
  all_goals
    have hok := (h.ok w).here hpc
    unfold barrierStep at hs
    simp only [hpc] at hs
  case doneLock =>
    split at hs <;> cases hs
    next hfree => exact h.lockDone hw hpc rfl nofun hfree rfl rfl hok nofun
  case doneLoad =>
    cases hs
    obtain ⟨hb, hdist⟩ : s.sync.isBusy w = true ∧ (s.worker w).dist = D := hok
    exact h.stay hw hpc rfl nofun rfl rfl ⟨hb, hdist, by rw [← hdist]⟩ nofun
  case doneStore =>
    cases hs
    exact inv_doneStore h hn hw hpc
  case doneUnlock =>
    cases hs
    exact h.unlockDone hw hpc rfl (fun _ => rfl) rfl rfl rfl hok nofun
  case passLock =>
    split at hs <;> cases hs
    next hfree => exact h.lock hw hpc rfl (fun _ => rfl) hfree rfl rfl hok
  case passTest =>
    obtain ⟨hb, hd⟩ : s.sync.isBusy w = true ∧
      (((s.worker w).dist = D ∧ Covered s.sync D) ∨ Late D s.sync (s.worker w)) := hok
    split at hs <;> cases hs
    · next hf =>
      exact h.stay hw hpc rfl (fun _ => rfl) rfl rfl ⟨hb, (h.flag_iff_late hpc).mp hf⟩ nofun
    · next hf =>
      have hnow := hd.resolve_right fun hlate => hf ((h.flag_iff_late hpc).mpr hlate)
      exact h.stay hw hpc rfl (fun _ => rfl) rfl rfl ⟨hb, hnow⟩ nofun
  case resetDone =>
    cases hs
    exact inv_resetDone h hw hpc
  case copyFull =>
    cases hs
    exact inv_copyFull h hw hpc
  case setFlag =>
    cases hs
    exact inv_setFlag h hw hpc
  case clearFlag =>
    cases hs
    exact inv_clearFlag h hw hpc
  case passUnlock =>
    obtain ⟨hb, hdist, -⟩ : s.sync.isBusy w = true ∧ Late D s.sync (s.worker w) := hok
    cases hs
    refine h.unlock hw ⟨by rw [hpc]; rfl, ?_, by rw [hpc]; rfl, by rw [hpc]; exact ⟨nofun, nofun⟩,
      by rw [hpc]; nofun⟩ hpc rfl rfl rfl ⟨hb, hdist⟩ nofun
    -- it had signed the level before
    refine ⟨fun hc => absurd hc.1 nofun, fun hc => ?_⟩
    have := hc.2
    omega
  all_goals cases hs

theorem inv_leave (h : Inv n D s.sync s.worker) (hw : w < n) (hs : leaveStep s w = some s') :
    Inv n D s'.sync s'.worker := by
  unfold leaveStep at hs
  cases hpc : (s.worker w).pc <;> have hok := (h.ok w).here hpc <;> simp only [hpc] at hs
  case leaveLock =>
    split at hs <;> cases hs
    next hfree => exact h.lock hw hpc rfl nofun hfree rfl rfl hok
  case leaveFull =>
    cases hs
    exact inv_leaveFull h hw hpc
  case leaveNext =>
    cases hs
    exact inv_leaveNext h hw hpc
  case leaveBusy =>
    cases hs
    exact inv_leaveBusy h hw hpc
  case leaveFree =>
    cases hs
    exact inv_leaveFree h hw hpc
  case leaveUnlock =>
    have hfree : s.sync.isBusy w = false := hok
    cases hs
    refine h.unlock hw (Quiet.of_pc hpc (by rw [hfree]; rfl) nofun) hpc rfl rfl rfl ?_ nofun
    exact fun hb => absurd hb (by rw [hfree]; decide)
  all_goals cases hs

/-- **The barrier**: every step of a worker keeps the invariant. -/
theorem inv_worker (h : Inv n D s.sync s.worker) (hn : n ≤ 64) (hw : w < n)
    (hs : beginWorkAt p start n s w = some s') :
    Inv n (levelAfter D (s.worker w)) s'.sync s'.worker := by
  unfold beginWorkAt at hs
  have hstay : (s.worker w).pc ≠ .clearFlag → levelAfter D (s.worker w) = D := fun hc => if_neg hc
  cases hpc : (s.worker w).pc <;> simp only [hpc] at hs
  case idle | idleFree | load =>
    rw [hstay (by rw [hpc]; decide)]
    exact inv_idle h hw hs
  case levelTest =>
    rw [hstay (by rw [hpc]; decide)]
    exact inv_level h hw hpc hs
  case giveTest | giveLock | giveCheck | giveBreak | giveDec | giveScan | giveParam | giveFull
      | giveBusy | giveUnlock =>
    rw [hstay (by rw [hpc]; decide)]
    exact inv_give h hn hw hs
  case visit | mark | update | setBits =>
    rw [hstay (by rw [hpc]; decide)]
    exact inv_visit h hw hs
  case leaveLock | leaveFull | leaveNext | leaveBusy | leaveFree | leaveUnlock =>
    rw [hstay (by rw [hpc]; decide)]
    exact inv_leave h hw hs
  case finished | fault => cases hs
  all_goals exact inv_barrier h hn hw hs

end

end MulticorePrac.MultiBfs
