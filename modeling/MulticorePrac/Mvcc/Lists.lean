import MulticorePrac.Mvcc.Snapshot

/-!
# The data lists and the active list, whatever GC does

`Sound n L s`: the part of the state invariant that does not depend on what the
transactions read; `L i` is thread `i`'s data list.  Every step keeps it, also a
GC step with a `ref_min_version` that went up in the scan (compare `Inv`, which
is about the runs without GC).

* Every list is non-empty and strictly descending; no two nodes have the same
  version, and none has a version that a running transaction is still to push.
* The active list has at most one entry for a thread.  The version in it is that
  of the head of the thread's list, and of the second node once the thread has
  pushed (`entryPlace`).
* GC erases behind a node that is not the head of its list (`GcAt`), so the first
  two nodes stay.
-/

namespace MulticorePrac.Mvcc

/-- The place of an active thread's entry version in the thread's own list. -/
def entryPlace (l : Local) : Nat := if l.pc = .leave then 1 else 0

def versionAt (l : DataList) (k : Nat) : Option Nat := l[k]?.map fun y => y.2.version

/-- The node GC holds is in the list it walks, and behind the head where GC erases. -/
def GcAt (n : Nat) (L : Nat → DataList) : GcPc → Prop
  | .walkLoad i => i < n
  | .walkTest i p => i < n ∧ ∀ a, p = some a → ∃ d, (a, d) ∈ L i
  | .walkNext i a => i < n ∧ ∃ d, (a, d) ∈ L i
  | .skip i a => i < n ∧ ∃ d, (a, d) ∈ L i
  | .skipNext i b => i < n ∧ ∃ l d m, l ≠ [] ∧ L i = l ++ (b, d) :: m
  | .erase i b p => i < n ∧ ∃ l d m, l ≠ [] ∧ L i = l ++ (b, d) :: m ∧ p = firstAddr m
  | _ => True

structure Sound (n : Nat) (L : Nat → DataList) (s : St) : Prop where
  chain : ∀ i < n, Chain s.heap (s.head i) (L i)
  nonempty : ∀ i < n, L i ≠ []
  desc : ∀ i < n, Desc (L i)
  bound : ∀ i < n, ∀ y ∈ L i, y.1 < s.fresh ∧ y.2.version < s.execOrder
  owner : ∀ i < n, ∀ j < n, ∀ y ∈ L i, ∀ z ∈ L j, y.1 = z.1 → i = j ∧ y = z
  apart : ∀ i < n, ∀ j < n, ∀ y ∈ L i, ∀ z ∈ L j, y.2.version = z.2.version → i = j
  ids : (s.active.map fun e => e.data.id).Nodup
  ptrs : (s.active.map ActiveNode.ptr).Nodup
  entry : ∀ e ∈ s.active, e.ptr < s.fresh ∧ e.data.id < n ∧ InTx (s.thr e.data.id) ∧
    e.ptr = (s.thr e.data.id).myNode
  place : ∀ e ∈ s.active,
    versionAt (L e.data.id) (entryPlace (s.thr e.data.id)) = some e.data.version
  drawn : ∀ x < n, Reading (s.thr x) → (s.thr x).myVersion < s.execOrder ∧
    ∀ y ∈ L x, y.2.version < (s.thr x).myVersion
  unused : ∀ x < n, Reading (s.thr x) → ∀ i < n, ∀ y ∈ L i, y.2.version ≠ (s.thr x).myVersion
  draws : ∀ x < n, ∀ y < n, Reading (s.thr x) → Reading (s.thr y) →
    (s.thr x).myVersion = (s.thr y).myVersion → x = y
  gcAt : GcAt n L s.gcPc

section
variable {n : Nat} {L : Nat → DataList} {s s' : St} {x : Nat}

theorem entryPlace_le (l : Local) : entryPlace l ≤ 1 := by
  unfold entryPlace
  split <;> omega

theorem entryPlace_of_ne {l : Local} (h : l.pc ≠ .leave) : entryPlace l = 0 := if_neg h

theorem SameTx.entryPlace_eq {l l' : Local} (h : SameTx l l') : entryPlace l' = entryPlace l := by
  unfold entryPlace
  simp only [h.leave]

theorem Sound.headCell (h : Sound n L s) {i : Nat} (hi : i < n) :
    ∃ a d nx rest, s.head i = some a ∧ s.heap a = some ⟨nx, d⟩ ∧ L i = (a, d) :: rest := by
  cases hL : L i with
  | nil => exact absurd hL (h.nonempty i hi)
  | cons y rest =>
    have hc := h.chain i hi
    rw [hL] at hc
    obtain ⟨hhead, nx, hcell, -⟩ := hc
    exact ⟨y.1, y.2, nx, rest, hhead, hcell, rfl⟩

/-- GC's node keeps its place when a list grows at the front. -/
theorem GcAt.mono {M : Nat → DataList} {g : GcPc} (hM : ∀ i, ∃ l, M i = l ++ L i)
    (h : GcAt n L g) : GcAt n M g := by
  have hmem : ∀ i y, y ∈ L i → y ∈ M i := by
    intro i y hy
    obtain ⟨l, hl⟩ := hM i
    rw [hl]
    exact List.mem_append_right l hy
  cases g with
  | walkTest i p =>
    refine ⟨h.1, fun a ha => ?_⟩
    obtain ⟨d, hd⟩ := h.2 a ha
    exact ⟨d, hmem i _ hd⟩
  | walkNext i a | skip i a =>
    obtain ⟨hi, d, hd⟩ := h
    exact ⟨hi, d, hmem i _ hd⟩
  | skipNext i b =>
    obtain ⟨hi, l, d, m, hne, hL⟩ := h
    obtain ⟨k, hk⟩ := hM i
    exact ⟨hi, k ++ l, d, m, by simp [hne], by rw [hk, hL, List.append_assoc]⟩
  | erase i b p =>
    obtain ⟨hi, l, d, m, hne, hL, hp⟩ := h
    obtain ⟨k, hk⟩ := hM i
    exact ⟨hi, k ++ l, d, m, by simp [hne], by rw [hk, hL, List.append_assoc], hp⟩
  | _ => exact h

/-! ## Steps of an update thread -/

/-- The lists are not concerned by where a reading thread is, nor by the log. -/
theorem Sound.congr (h : Sound n L s) {thr : Nat → Local} {log : List Event}
    (hs : ∀ y, SameTx (s.thr y) (thr y)) : Sound n L { s with thr := thr, log := log } := by
  refine ⟨h.chain, h.nonempty, h.desc, h.bound, h.owner, h.apart, h.ids, h.ptrs, ?_, ?_, ?_, ?_, ?_,
    h.gcAt⟩
  · intro e he
    obtain ⟨h1, h2, h3, h4⟩ := h.entry e he
    refine ⟨h1, h2, (hs _).inTx.mpr h3, ?_⟩
    rw [h4]
    exact (hs _).myNode.symm
  · intro e he
    show versionAt (L e.data.id) (entryPlace (thr e.data.id)) = _
    rw [(hs _).entryPlace_eq]
    exact h.place e he
  · intro y hy hr
    show (thr y).myVersion < s.execOrder ∧ ∀ z ∈ L y, z.2.version < (thr y).myVersion
    rw [(hs y).myVersion]
    exact h.drawn y hy ((hs y).reading.mp hr)
  · intro y hy hr i hi z hz
    show z.2.version ≠ (thr y).myVersion
    rw [(hs y).myVersion]
    exact h.unused y hy ((hs y).reading.mp hr) i hi z hz
  · intro y hy z hz hry hrz he
    apply h.draws y hy z hz ((hs y).reading.mp hry) ((hs z).reading.mp hrz)
    rw [← (hs y).myVersion, ← (hs z).myVersion]
    exact he

theorem Sound.move (h : Sound n L s) {l : Local} (hl : SameTx (s.thr x) l) {log : List Event} :
    Sound n L { s with thr := Function.update s.thr x l, log := log } := by
  apply h.congr
  intro y
  by_cases hy : y = x
  · subst hy; rw [Function.update_self]; exact hl
  · rw [Function.update_of_ne hy]; exact SameTx.refl _

theorem Sound.goto (h : Sound n L s) (hr : Reading (s.thr x)) {pc : Pc} (h1 : pc ≠ .idle)
    (h2 : pc ≠ .leave) : Sound n L (s.goto x pc) :=
  h.move (sameTx_pc hr h1 h2)

theorem Sound.found (h : Sound n L s) (hr : Reading (s.thr x)) (a : Nat) (d : Data) :
    Sound n L (found s x a d) := by
  have hl : SameTx (s.thr x) { s.thr x with pc := .copyX, dataI := d } :=
    ⟨rfl, rfl, rfl, by simp [hr.1], by simp [hr.2]⟩
  exact h.move hl

/-- A look at a node of a list, whatever it finds there. -/
theorem Sound.test (h : Sound n L s) (hr : Reading (s.thr x)) (node : Option Nat) :
    Sound n L (test s x node) := by
  unfold Mvcc.test
  cases node with
  | none => exact h.goto hr (by simp) (by simp)
  | some a =>
    simp only
    cases s.heap a with
    | none => exact h.goto hr (by simp) (by simp)
    | some c =>
      simp only
      cases (s.thr x).targetVersion with
      | none =>
        simp only
        split
        · exact h.found hr a _
        · exact h.goto hr (by simp) (by simp)
      | some v =>
        simp only
        split
        · split
          · exact h.found hr a _
          · exact h.goto hr (by simp) (by simp)
        · exact h.goto hr (by simp) (by simp)

theorem Sound.next (h : Sound n L s) (hr : Reading (s.thr x)) (node : Nat) :
    Sound n L (next s x node) := by
  unfold Mvcc.next
  split
  · exact h.goto hr (by simp) (by simp)
  · exact h.goto hr (by simp) (by simp)

theorem Sound.copyX (h : Sound n L s) (hr : Reading (s.thr x)) : Sound n L (copyX s x) := by
  unfold Mvcc.copyX
  split
  · exact h.goto hr (by simp) (by simp)
  · split
    · exact h.goto hr (by simp) (by simp)
    · next c _ =>
      have hl : SameTx (s.thr x) { s.thr x with pc := .push, dataX := c.data } :=
        ⟨rfl, rfl, rfl, by simp [hr.1], by simp [hr.2]⟩
      exact h.move hl

/-- A version is drawn that no node has, and the entry gets the version of the head. -/
theorem Sound.snapshot (h : Sound n L s) (hx : x < n) (hpc : (s.thr x).pc = .idle) :
    Sound n L (snapshot s x) := by
  obtain ⟨a, d, nx, rest, hhead, hcell, hL⟩ := h.headCell hx
  have hnot : ∀ e ∈ s.active, e.data.id ≠ x := by
    intro e he hid
    have := (h.entry e he).2.2.1
    rw [hid] at this
    exact this hpc
  unfold Mvcc.snapshot
  simp only [hhead, hcell]
  refine ⟨h.chain, h.nonempty, h.desc, ?_, h.owner, h.apart, ?_, ?_, ?_, ?_, ?_, ?_, ?_, h.gcAt⟩
  · intro i hi y hy
    have := h.bound i hi y hy
    simp only
    omega
  · rw [List.map_cons, List.nodup_cons]
    refine ⟨fun hm => ?_, h.ids⟩
    obtain ⟨e, he, hid⟩ := List.mem_map.mp hm
    exact hnot e he hid
  · rw [List.map_cons, List.nodup_cons]
    refine ⟨fun hm => ?_, h.ptrs⟩
    obtain ⟨e, he, hp⟩ := List.mem_map.mp hm
    have := (h.entry e he).1
    simp only at hp
    omega
  · intro e he
    rcases List.mem_cons.mp he with rfl | he
    · refine ⟨Nat.lt_succ_self _, hx, ?_, ?_⟩
      · simp [InTx]
      · simp
    · obtain ⟨h1, h2, h3, h4⟩ := h.entry e he
      simp only [Function.update_of_ne (hnot e he)]
      exact ⟨Nat.lt_succ_of_lt h1, h2, h3, h4⟩
  · intro e he
    rcases List.mem_cons.mp he with rfl | he
    · simp [entryPlace, versionAt, hL]
    · simp only [Function.update_of_ne (hnot e he)]
      exact h.place e he
  · intro y hy hr
    by_cases hyx : y = x
    · subst hyx
      simp only [Function.update_self]
      exact ⟨Nat.lt_succ_self _, fun z hz => (h.bound y hy z hz).2⟩
    · simp only [Function.update_of_ne hyx] at hr ⊢
      exact ⟨Nat.lt_succ_of_lt (h.drawn y hy hr).1, (h.drawn y hy hr).2⟩
  · intro y hy hr i hi z hz
    by_cases hyx : y = x
    · subst hyx
      simp only [Function.update_self]
      exact Nat.ne_of_lt (h.bound i hi z hz).2
    · simp only [Function.update_of_ne hyx] at hr ⊢
      exact h.unused y hy hr i hi z hz
  · -- the new version is above all that were drawn before
    intro y hy z hz hry hrz he
    by_cases hyx : y = x
    · by_cases hzx : z = x
      · rw [hyx, hzx]
      · subst hyx
        simp only [Function.update_self, Function.update_of_ne hzx] at hrz he
        have := (h.drawn z hz hrz).1
        omega
    · by_cases hzx : z = x
      · subst hzx
        simp only [Function.update_self, Function.update_of_ne hyx] at hry he
        have := (h.drawn y hy hry).1
        omega
      · simp only [Function.update_of_ne hyx, Function.update_of_ne hzx] at hry hrz he
        exact h.draws y hy z hz hry hrz he

theorem versionAt_pushList_self (k : Nat) :
    versionAt (pushList L s x x) (k + 1) = versionAt (L x) k := by
  rw [pushList_self]
  rfl

/-- A thread that still reads has the number that it has drawn. -/
theorem Sound.draws_kept (h : Sound n L s) {thr : Nat → Local}
    (hthr : ∀ y, Reading (thr y) → thr y = s.thr y) :
    ∀ y < n, ∀ z < n, Reading (thr y) → Reading (thr z) →
      (thr y).myVersion = (thr z).myVersion → y = z := by
  intro y hy z hz hry hrz he
  have hy' := hthr y hry
  have hz' := hthr z hrz
  rw [hy'] at hry he
  rw [hz'] at hrz he
  exact h.draws y hy z hz hry hrz he

theorem Sound.chain_pushList (h : Sound n L s) {i : Nat} (hi : i < n) :
    Chain (Mvcc.push s x).heap ((Mvcc.push s x).head i) (pushList L s x i) := by
  have hne : ∀ y ∈ L i, y.1 ≠ s.fresh := fun y hy => Nat.ne_of_lt (h.bound i hi y hy).1
  by_cases hix : i = x
  · subst hix
    rw [pushList_self]
    show Chain _ (Function.update s.head i (some s.fresh) i) _
    rw [Function.update_self]
    exact chain_push (h.chain i hi) hne
  · rw [pushList_of_ne hix]
    show Chain _ (Function.update s.head x (some s.fresh) i) _
    rw [Function.update_of_ne hix]
    refine chain_congr (fun y hy => ?_) (h.chain i hi)
    exact Function.update_of_ne (hne y hy) _ _

/-- The version that is pushed was drawn at the snapshot and is newer than the thread's head. -/
theorem Sound.push (h : Sound n L s) (hx : x < n) (hpc : (s.thr x).pc = .push) :
    Sound n (pushList L s x) (push s x) := by
  have hrx : Reading (s.thr x) := reading_of_pc hpc (by simp) (by simp)
  obtain ⟨hdr, hown⟩ := h.drawn x hx hrx
  have hpcx : ((Mvcc.push s x).thr x).pc = .leave := by simp [Mvcc.push]
  have hoth : ∀ y, y ≠ x → (Mvcc.push s x).thr y = s.thr y :=
    fun y hy => Function.update_of_ne hy _ _
  have hother : ∀ y, Reading ((Mvcc.push s x).thr y) → y ≠ x := by
    rintro y hr rfl
    exact hr.2 hpcx
  have hne : ∀ i < n, ∀ y ∈ L i, y.1 ≠ s.fresh := by
    intro i hi y hy
    have := (h.bound i hi y hy).1
    omega
  refine ⟨fun i hi => h.chain_pushList hi, ?_, ?_, ?_, ?_, ?_, h.ids, h.ptrs, ?_, ?_, ?_, ?_, ?_, ?_⟩
  · intro i hi
    by_cases hix : i = x
    · subst hix
      rw [pushList_self]
      simp
    · rw [pushList_of_ne hix]
      exact h.nonempty i hi
  · intro i hi
    by_cases hix : i = x
    · subst hix
      rw [pushList_self]
      exact List.pairwise_cons.mpr ⟨hown, h.desc i hi⟩
    · rw [pushList_of_ne hix]
      exact h.desc i hi
  · intro i hi y hy
    show y.1 < s.fresh + 1 ∧ y.2.version < s.execOrder
    rcases mem_pushList.mp hy with hy | ⟨rfl, rfl⟩
    · have := h.bound i hi y hy
      omega
    · exact ⟨Nat.lt_succ_self _, hdr⟩
  · intro i hi j hj y hy z hz he
    rcases mem_pushList.mp hy with hy' | ⟨rfl, rfl⟩
    · rcases mem_pushList.mp hz with hz' | ⟨rfl, rfl⟩
      · exact h.owner i hi j hj y hy' z hz' he
      · exact absurd he (hne i hi y hy')
    · rcases mem_pushList.mp hz with hz' | ⟨rfl, rfl⟩
      · exact absurd he.symm (hne j hj z hz')
      · exact ⟨rfl, rfl⟩
  · intro i hi j hj y hy z hz he
    rcases mem_pushList.mp hy with hy' | ⟨rfl, rfl⟩
    · rcases mem_pushList.mp hz with hz' | ⟨rfl, rfl⟩
      · exact h.apart i hi j hj y hy' z hz' he
      · exact absurd he (h.unused j hj hrx i hi y hy')
    · rcases mem_pushList.mp hz with hz' | ⟨rfl, rfl⟩
      · exact absurd he.symm (h.unused i hi hrx j hj z hz')
      · rfl
  · intro e he
    obtain ⟨h1, h2, h3, h4⟩ := h.entry e he
    by_cases hix : e.data.id = x
    · refine ⟨Nat.lt_succ_of_lt h1, h2, ?_, ?_⟩
      · show ((Mvcc.push s x).thr e.data.id).pc ≠ .idle
        rw [hix, hpcx]
        simp
      · rw [h4, hix]
        simp [Mvcc.push]
    · rw [hoth _ hix]
      exact ⟨Nat.lt_succ_of_lt h1, h2, h3, h4⟩
  · -- the head of the pusher's list becomes its second node
    intro e he
    have hp := h.place e he
    by_cases hix : e.data.id = x
    · rw [hix] at hp ⊢
      rw [entryPlace_of_ne hrx.2] at hp
      rw [show entryPlace ((Mvcc.push s x).thr x) = 0 + 1 from if_pos hpcx, versionAt_pushList_self]
      exact hp
    · rw [hoth _ hix, pushList_of_ne hix]
      exact hp
  · intro y hy hr
    have hyx := hother y hr
    rw [hoth y hyx] at hr ⊢
    rw [pushList_of_ne hyx]
    exact h.drawn y hy hr
  · intro y hy hr i hi z hz
    have hyx := hother y hr
    rw [hoth y hyx] at hr ⊢
    rcases mem_pushList.mp hz with hz | ⟨rfl, rfl⟩
    · exact h.unused y hy hr i hi z hz
    · exact fun he => hyx (h.draws i hi y hy hrx hr he).symm
  · exact h.draws_kept fun y hr => hoth y (hother y hr)
  · refine GcAt.mono (fun i => ?_) h.gcAt
    by_cases hix : i = x
    · subst hix
      exact ⟨[_], pushList_self⟩
    · exact ⟨[], pushList_of_ne hix⟩

/-- `NodeErase` on the active list takes the thread's own entry out. -/
theorem Sound.leave (h : Sound n L s) (hpc : (s.thr x).pc = .leave) : Sound n L (leave s x) := by
  have hoth : ∀ y, y ≠ x → (Mvcc.leave s x).thr y = s.thr y :=
    fun y hy => Function.update_of_ne hy _ _
  have hother : ∀ y, Reading ((Mvcc.leave s x).thr y) → y ≠ x := by
    rintro y hr rfl
    exact hr.1 (by simp [Mvcc.leave])
  have hsub : (Mvcc.leave s x).active.Sublist s.active := List.eraseP_sublist
  have hact : ∀ e ∈ (Mvcc.leave s x).active, e ∈ s.active ∧ e.data.id ≠ x := by
    intro e he
    obtain ⟨hm, hp⟩ := (mem_eraseP_ptr h.ptrs).mp he
    refine ⟨hm, fun hid => hp ?_⟩
    rw [(h.entry e hm).2.2.2, hid]
  refine ⟨h.chain, h.nonempty, h.desc, h.bound, h.owner, h.apart, (hsub.map _).nodup h.ids,
    (hsub.map _).nodup h.ptrs, ?_, ?_, ?_, ?_, ?_, h.gcAt⟩
  · intro e he
    obtain ⟨hm, hid⟩ := hact e he
    rw [hoth _ hid]
    exact h.entry e hm
  · intro e he
    obtain ⟨hm, hid⟩ := hact e he
    rw [hoth _ hid]
    exact h.place e hm
  · intro y hy hr
    have hyx := hother y hr
    rw [hoth y hyx] at hr ⊢
    exact h.drawn y hy hr
  · intro y hy hr
    have hyx := hother y hr
    rw [hoth y hyx] at hr ⊢
    exact h.unused y hy hr
  · exact h.draws_kept fun y hr => hoth y (hother y hr)

theorem Sound.thread (h : Sound n L s) (hx : x < n) (hs : updateAB s x = some s') :
    Sound n (threadList L s x) s' := by
  unfold updateAB at hs
  unfold threadList
  cases hpc : (s.thr x).pc with
  | idle => rw [hpc] at hs; cases hs; exact h.snapshot hx hpc
  | pick => rw [hpc] at hs; cases hs
  | loadHead =>
    rw [hpc] at hs
    cases hs
    exact h.goto (reading_of_pc hpc (by simp) (by simp)) (by simp) (by simp)
  | test node =>
    rw [hpc] at hs
    cases hs
    exact h.test (reading_of_pc hpc (by simp) (by simp)) node
  | next a =>
    rw [hpc] at hs
    cases hs
    exact h.next (reading_of_pc hpc (by simp) (by simp)) a
  | copyX =>
    rw [hpc] at hs
    cases hs
    exact h.copyX (reading_of_pc hpc (by simp) (by simp))
  | push => rw [hpc] at hs; cases hs; exact h.push hx hpc
  | leave => rw [hpc] at hs; cases hs; exact h.leave hpc
  | fault f => rw [hpc] at hs; cases hs

theorem Sound.pick (h : Sound n L s) (hpc : (s.thr x).pc = .pick) (i : Nat) :
    Sound n L (pick s x i) := by
  have hl : SameTx (s.thr x) { s.thr x with
      pc := .loadHead
      i := i
      targetVersion := ((s.thr x).rv.find? fun e => e.id == i).map ActiveThread.version } :=
    ⟨rfl, rfl, rfl, by simp [hpc], by simp [hpc]⟩
  exact h.move hl

/-! ## Steps of GC -/

theorem Sound.setGc (h : Sound n L s) {g : GcPc} {r : Nat} (hg : GcAt n L g) :
    Sound n L { s with gcPc := g, refMin := r } :=
  ⟨h.chain, h.nonempty, h.desc, h.bound, h.owner, h.apart, h.ids, h.ptrs, h.entry, h.place, h.drawn,
    h.unused, h.draws, hg⟩

theorem gcAt_walkFrom (i : Nat) : GcAt n L (walkFrom n i) := by
  unfold walkFrom
  split
  · next hi => exact hi
  · trivial

theorem gcAt_scanFrom (k : Nat) : GcAt n L (scanFrom n k) := by
  unfold scanFrom
  split
  · trivial
  · exact gcAt_walkFrom 0

theorem Sound.cell (h : Sound n L s) {i a : Nat} {d : Data} (hi : i < n) (ha : (a, d) ∈ L i) :
    ∃ l m, L i = l ++ (a, d) :: m ∧ s.heap a = some ⟨firstAddr m, d⟩ := by
  obtain ⟨l, m, hL⟩ := List.append_of_mem ha
  have hc := h.chain i hi
  rw [hL] at hc
  exact ⟨l, m, hL, chain_cell hc⟩

/-- The first two nodes of a list stay when a node further down is taken out. -/
theorem versionAt_erase {l m : DataList} {y z : Nat × Data} (hl : l ≠ []) {k : Nat} (hk : k ≤ 1) :
    versionAt (l ++ y :: m) k = versionAt (l ++ y :: z :: m) k := by
  obtain ⟨w, l, rfl⟩ := List.exists_cons_of_ne_nil hl
  match k, hk with
  | 0, _ => rfl
  | 1, _ => cases l <;> rfl

/-- Erasing the node after `b`, which is not the head. -/
theorem Sound.erase (h : Sound n L s) {i b a : Nat} {d e : Data} {l m : DataList} (hi : i < n)
    (hl : l ≠ []) (hL : L i = l ++ (b, d) :: (a, e) :: m) :
    Sound n (Function.update L i (l ++ (b, d) :: m))
      { s with
        heap := Function.update (Function.update s.heap b (some ⟨firstAddr m, d⟩)) a none
        gcPc := .erase i b (firstAddr m) } := by
  have hsub : ∀ j, (Function.update L i (l ++ (b, d) :: m) j).Sublist (L j) := by
    intro j
    by_cases hji : j = i
    · subst hji
      rw [Function.update_self, hL]
      exact List.Sublist.append_left (List.Sublist.cons_cons _ (List.sublist_cons_self _ _)) _
    · rw [Function.update_of_ne hji]
  have hbL : (b, d) ∈ L i := by rw [hL]; simp
  have haL : (a, e) ∈ L i := by rw [hL]; simp
  have hnodup : ((L i).map Prod.fst).Nodup := by
    rw [List.nodup_map_iff_inj_on ((h.desc i hi).imp (fun hab he => by rw [he] at hab; omega))]
    intro y hy z hz he
    exact (h.owner i hi i hi y hy z hz he).2
  refine ⟨?_, ?_, ?_, ?_, ?_, ?_, h.ids, h.ptrs, h.entry, ?_, ?_, ?_, h.draws, ?_⟩
  · intro j hj
    by_cases hji : j = i
    · subst hji
      rw [Function.update_self]
      have hc := h.chain j hj
      rw [hL] at hc hnodup
      exact chain_unlink hc hnodup
    · rw [Function.update_of_ne hji]
      -- the two cells that change belong to thread `i`'s list only
      refine chain_congr (fun y hy => ?_) (h.chain j hj)
      have h1 : y.1 ≠ b := fun he => hji (h.owner j hj i hi y hy _ hbL he).1
      have h2 : y.1 ≠ a := fun he => hji (h.owner j hj i hi y hy _ haL he).1
      show Function.update (Function.update s.heap b _) a none y.1 = s.heap y.1
      rw [Function.update_of_ne h2, Function.update_of_ne h1]
  · intro j hj
    by_cases hji : j = i
    · subst hji
      rw [Function.update_self]
      simp
    · rw [Function.update_of_ne hji]
      exact h.nonempty j hj
  · intro j hj
    exact (h.desc j hj).sublist (hsub j)
  · intro j hj y hy
    exact h.bound j hj y ((hsub j).subset hy)
  · intro j hj k hk y hy z hz
    exact h.owner j hj k hk y ((hsub j).subset hy) z ((hsub k).subset hz)
  · intro j hj k hk y hy z hz
    exact h.apart j hj k hk y ((hsub j).subset hy) z ((hsub k).subset hz)
  · intro o ho
    by_cases hoi : o.data.id = i
    · rw [hoi, Function.update_self, versionAt_erase (z := (a, e)) hl (entryPlace_le _), ← hL, ← hoi]
      exact h.place o ho
    · rw [Function.update_of_ne hoi]
      exact h.place o ho
  · intro y hy hr
    exact ⟨(h.drawn y hy hr).1, fun z hz => (h.drawn y hy hr).2 z ((hsub y).subset hz)⟩
  · intro y hy hr j hj z hz
    exact h.unused y hy hr j hj z ((hsub j).subset hz)
  · exact ⟨hi, l, d, m, hl, Function.update_self _ _ _, rfl⟩

theorem Sound.gc (h : Sound n L s) {m : HeadLoads} (hs : Mvcc.gc m n s = some s') :
    ∃ M, Sound n M s' := by
  have hat := h.gcAt
  unfold Mvcc.gc at hs
  cases hg : s.gcPc with
  | start =>
    rw [hg] at hs
    cases hs
    exact ⟨L, h.setGc (gcAt_scanFrom 0)⟩
  | nullTest k =>
    simp only [hg] at hs
    split at hs
    · cases hs
      exact ⟨L, h.setGc (gcAt_scanFrom _)⟩
    · split at hs <;> cases hs <;> exact ⟨L, h.setGc trivial⟩
  | testLoad k =>
    simp only [hg] at hs
    split at hs <;> cases hs <;> exact ⟨L, h.setGc trivial⟩
  | testVersion k a =>
    simp only [hg] at hs
    split at hs
    · cases hs
      exact ⟨L, h.setGc trivial⟩
    · split at hs
      · split at hs
        · cases hs
          exact ⟨L, h.setGc (gcAt_scanFrom _)⟩
        · cases hs
          exact ⟨L, h.setGc trivial⟩
      · cases hs
        exact ⟨L, h.setGc (gcAt_scanFrom _)⟩
  | setLoad k a =>
    simp only [hg] at hs
    split at hs <;> cases hs <;> exact ⟨L, h.setGc trivial⟩
  | setVersion k a =>
    simp only [hg] at hs
    split at hs
    · cases hs
      exact ⟨L, h.setGc trivial⟩
    · cases hs
      exact ⟨L, h.setGc (gcAt_scanFrom _)⟩
  | walkLoad i =>
    rw [hg] at hs hat
    cases hs
    obtain ⟨a, d, _, rest, hhd, -, hL⟩ := h.headCell hat
    refine ⟨L, h.setGc ⟨hat, fun b hb => ⟨d, ?_⟩⟩⟩
    rw [hhd] at hb
    rw [hL, ← Option.some.inj hb]
    exact List.mem_cons_self
  | walkTest i p =>
    rw [hg] at hs hat
    obtain ⟨hi, hp⟩ := hat
    cases p with
    | none =>
      cases hs
      exact ⟨L, h.setGc (gcAt_walkFrom _)⟩
    | some a =>
      obtain ⟨_, _, _, hcell⟩ := h.cell hi (hp a rfl).choose_spec
      simp only [hcell] at hs
      split at hs <;> cases hs <;> exact ⟨L, h.setGc ⟨hi, hp a rfl⟩⟩
  | walkNext i a =>
    rw [hg] at hs hat
    obtain ⟨hi, d, ha⟩ := hat
    obtain ⟨l, m, hL, hcell⟩ := h.cell hi ha
    simp only [hcell] at hs
    cases hs
    refine ⟨L, h.setGc ⟨hi, fun b hb => ?_⟩⟩
    obtain ⟨e, m', rfl⟩ := firstAddr_mem hb
    exact ⟨e, by rw [hL]; simp⟩
  | skip i a =>
    rw [hg] at hs hat
    obtain ⟨hi, d, ha⟩ := hat
    obtain ⟨l, m, hL, hcell⟩ := h.cell hi ha
    simp only [hcell] at hs
    cases hm : m with
    | nil =>
      rw [hm] at hs
      cases hs
      exact ⟨L, h.setGc (gcAt_walkFrom _)⟩
    | cons z m' =>
      rw [hm] at hs hL
      cases hs
      refine ⟨L, h.setGc ⟨hi, l ++ [(a, d)], z.2, m', by simp, ?_⟩⟩
      rw [hL, List.append_assoc]
      rfl
  | skipNext i b =>
    rw [hg] at hs hat
    obtain ⟨hi, l, d, m, hl, hL⟩ := hat
    have hc := h.chain i hi
    rw [hL] at hc
    have hcell : s.heap b = _ := chain_cell hc
    simp only [hcell] at hs
    cases hs
    exact ⟨L, h.setGc ⟨hi, l, d, m, hl, hL, rfl⟩⟩
  | erase i b p =>
    rw [hg] at hs hat
    obtain ⟨hi, l, d, m, hl, hL, rfl⟩ := hat
    cases hm : m with
    | nil =>
      rw [hm] at hs
      cases hs
      exact ⟨L, h.setGc (gcAt_walkFrom _)⟩
    | cons z m' =>
      rw [hm] at hs hL
      have hc := h.chain i hi
      rw [hL] at hc
      simp only [firstAddr_cons, nodeErase_chain hc] at hs
      cases hs
      exact ⟨_, h.erase hi hl hL⟩
  | fault =>
    rw [hg] at hs
    cases hs

/-! ## Every run -/

theorem sound_initial (rand : Nat → Nat) (n : Nat) :
    Sound n (fun i => [(i, initialData rand i)]) (initial rand n) := by
  have h := inv_initial rand n
  refine ⟨h.chain, fun i _ => by simp, h.desc, h.bound, h.owner, ?_, h.ids, h.ptrs, ?_, ?_, ?_, ?_,
    ?_, trivial⟩
  · intro i _ j _ y hy z hz he
    rw [List.mem_singleton] at hy hz
    subst hy hz
    exact he
  · intro e he; cases he
  · intro e he; cases he
  · intro y _ hr; exact absurd rfl hr.1
  · intro y _ hr; exact absurd rfl hr.1
  · intro y _ z _ hr; exact absurd rfl hr.1

theorem sound_step {m : HeadLoads} {a : Act} (h : ∃ L, Sound n L s)
    (hs : step m n s a = some s') : ∃ L, Sound n L s' := by
  obtain ⟨L, h⟩ := h
  cases a with
  | thread x =>
    obtain ⟨hx, hs⟩ := step_thread.mp hs
    exact ⟨_, h.thread hx hs⟩
  | pick x i =>
    obtain ⟨-, hpc, rfl⟩ := step_pick.mp hs
    exact ⟨L, h.pick hpc i⟩
  | gc => exact h.gc hs

theorem sound_reachable {m : HeadLoads} {rand : Nat → Nat} (hr : (mvcc m rand n).Reachable s) :
    ∃ L, Sound n L s :=
  (mvcc m rand n).invariant (fun s => ∃ L, Sound n L s) ⟨_, sound_initial rand n⟩
    (fun _ _ _ hi hs => sound_step hi hs) hr

/-- **The state invariant**: in every reachable state the data lists are non-empty and strictly
descending, no two nodes have the same version and all versions have been drawn, a thread is on
the active list at most once, and its entry has the version of the head of its list before its
push and of the second node after it. -/
theorem lists_sound (m : HeadLoads) (rand : Nat → Nat) (n : Nat) (s : St)
    (hr : (mvcc m rand n).Reachable s) :
    ∃ L : Nat → DataList,
      (∀ i < n, Chain s.heap (s.head i) (L i)) ∧
      (∀ i < n, L i ≠ [] ∧ Desc (L i)) ∧
      (∀ i < n, ∀ j < n, ∀ y ∈ L i, ∀ z ∈ L j, y.2.version = z.2.version → i = j ∧ y = z) ∧
      (∀ i < n, ∀ y ∈ L i, y.2.version < s.execOrder) ∧
      (s.active.map fun e => e.data.id).Nodup ∧
      ∀ e ∈ s.active, e.data.id < n ∧
        ((s.thr e.data.id).pc ≠ .leave → versionAt (L e.data.id) 0 = some e.data.version) ∧
        ((s.thr e.data.id).pc = .leave → versionAt (L e.data.id) 1 = some e.data.version) := by
  obtain ⟨L, h⟩ := sound_reachable hr
  refine ⟨L, h.chain, fun i hi => ⟨h.nonempty i hi, h.desc i hi⟩, ?_,
    fun i hi y hy => (h.bound i hi y hy).2, h.ids, fun e he => ⟨(h.entry e he).2.1, ?_, ?_⟩⟩
  · intro i hi j hj y hy z hz hv
    obtain rfl := h.apart i hi j hj y hy z hz hv
    exact ⟨rfl, desc_inj (h.desc i hi) hy hz hv⟩
  · intro hpc
    have hp := h.place e he
    rwa [entryPlace_of_ne hpc] at hp
  · intro hpc
    have hp := h.place e he
    rwa [show entryPlace (s.thr e.data.id) = 1 from if_pos hpc] at hp

end

/-- After a GC that erased the initial node, thread 0 takes a snapshot and pushes. -/
def pushedRun : List Act :=
  erasingRun ++ [.thread 0, .pick 0 0, .thread 0, .thread 0, .thread 0, .thread 0]

theorem lists_sound_pushed :
    ∃ s, (mvcc .once (fun _ => 7) 1).run pushedRun = some s ∧ s.heap 0 = none ∧
      (s.active.map ActiveNode.data) = [⟨0, 3⟩] ∧ (s.thr 0).pc = .leave ∧
      ∃ l, Chain s.heap (s.head 0) l ∧ Desc l ∧ versionAt l 1 = some 3 := by
  have hs : (((mvcc .once (fun _ => 7) 1).run pushedRun).any fun s =>
      decide (s.heap 0 = none ∧ (s.active.map ActiveNode.data) = [⟨0, 3⟩] ∧
        (s.thr 0).pc = .leave)) = true := by
    decide
  obtain ⟨s, hr, h0⟩ := (Option.any_eq_true _ _).mp hs
  obtain ⟨hfreed, hact, hpc⟩ := of_decide_eq_true h0
  obtain ⟨L, hchain, hdesc, -, -, -, hentry⟩ := lists_sound _ _ _ s ⟨_, hr⟩
  obtain ⟨e, he, hdata⟩ := List.mem_map.mp
    (show (⟨0, 3⟩ : ActiveThread) ∈ s.active.map ActiveNode.data by simp [hact])
  have hv := (hentry e he).2.2
  rw [hdata] at hv
  exact ⟨s, hr, hfreed, hact, hpc, L 0, hchain 0 Nat.one_pos, (hdesc 0 Nat.one_pos).2, hv hpc⟩

end MulticorePrac.Mvcc
