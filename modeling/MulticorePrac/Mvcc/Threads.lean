import MulticorePrac.Mvcc.Invariant

/-!
# Every step of an update thread keeps the invariant

The steps that only move a reading thread are one lemma (`Inv.move`); the three
steps that change the shared state (`snapshot`, `push`, `leave`) have one each.
Only `push` changes the data lists (`pushList`).  `inv_thread` and `inv_pick`
put them together, and `inv_initial` starts them.
-/

namespace MulticorePrac.Mvcc

section
variable {rand : Nat → Nat} {n : Nat} {L : Nat → DataList} {s : St} {x : Nat}

/-! ## Moves of a reading thread -/

/-- The same transaction, at another place of its reading part. -/
structure SameTx (l l' : Local) : Prop where
  myVersion : l'.myVersion = l.myVersion
  rv : l'.rv = l.rv
  myNode : l'.myNode = l.myNode
  idle : l'.pc = .idle ↔ l.pc = .idle
  leave : l'.pc = .leave ↔ l.pc = .leave

theorem SameTx.refl (l : Local) : SameTx l l := ⟨rfl, rfl, rfl, Iff.rfl, Iff.rfl⟩

theorem SameTx.reading {l l' : Local} (h : SameTx l l') : Reading l' ↔ Reading l := by
  unfold Reading
  rw [Ne, Ne, Ne, Ne, h.idle, h.leave]

theorem SameTx.inTx {l l' : Local} (h : SameTx l l') : InTx l' ↔ InTx l := by
  unfold InTx
  rw [Ne, Ne, h.idle]

theorem View.congr (v : View rand n L s x) {thr : Nat → Local}
    (hs : ∀ y, SameTx (s.thr y) (thr y)) : View rand n L { s with thr := thr } x := by
  have hx := hs x
  refine ⟨?_, v.mem, ?_, ?_, ?_, ?_⟩
  · intro y hy
    show y.2.version < (thr x).myVersion
    rw [hx.myVersion]
    exact v.own y hy
  · intro e he
    rw [show (({ s with thr := thr } : St).thr x).rv = (s.thr x).rv from hx.rv] at he
    exact v.inRv e he
  · intro i hi hr
    show (snapNode rand s.log x i).2.version < (thr x).myVersion ∧ ∀ y ∈ L i,
      (snapNode rand s.log x i).2.version < y.2.version → (thr x).myVersion < y.2.version
    rw [show (({ s with thr := thr } : St).thr x).rv = (s.thr x).rv from hx.rv] at hr
    rw [hx.myVersion]
    exact v.notRv i hi hr
  · intro i hi y hy z hz h1 h2
    show (thr x).myVersion < z.2.version
    rw [hx.myVersion]
    exact v.second i hi y hy z hz h1 h2
  · intro i hi hr
    show (thr x).myVersion < (thr i).myVersion ∨
      ((L i).head? = some (snapNode rand s.log x i) ∧ ∃ e ∈ (thr x).rv, e.id = i)
    rw [hx.myVersion, hx.rv, (hs i).myVersion]
    exact v.running i hi ((hs i).reading.mp hr)

theorem Inv.congr (h : Inv rand n L s) {thr : Nat → Local} (hs : ∀ y, SameTx (s.thr y) (thr y))
    (hpc : ∀ y < n, PcOk rand n L s.log y (thr y)) : Inv rand n L { s with thr := thr } := by
  refine ⟨h.chain, h.desc, h.bound, h.owner, h.newest, ?_, ?_, h.ids, h.ptrs, ?_, ?_, ?_, hpc, ?_,
    h.reads⟩
  · intro i hi hl
    exact h.committed i hi (fun e => hl ((hs i).leave.mpr e))
  · intro i hi hl
    exact h.pushed i hi ((hs i).leave.mp hl)
  · intro e he
    obtain ⟨h1, h2, h3, h4, h5⟩ := h.entry e he
    refine ⟨h1, h2, (hs _).inTx.mpr h3, ?_, h5⟩
    rw [h4]
    exact (hs _).myNode.symm
  · intro y hy ht
    exact h.listed y hy ((hs y).inTx.mp ht)
  · intro y hy ht
    show (thr y).myVersion < s.execOrder
    rw [(hs y).myVersion]
    exact h.drawn y hy ((hs y).inTx.mp ht)
  · intro y hy hr
    exact (h.view y hy ((hs y).reading.mp hr)).congr hs

theorem Inv.move (h : Inv rand n L s) {l : Local} (hs : SameTx (s.thr x) l)
    (hpc : PcOk rand n L s.log x l) : Inv rand n L (s.setThr x l) := by
  apply h.congr
  · intro y
    by_cases hy : y = x
    · subst hy; rw [Function.update_self]; exact hs
    · rw [Function.update_of_ne hy]; exact SameTx.refl _
  · intro y hy
    by_cases hyx : y = x
    · subst hyx; rw [Function.update_self]; exact hpc
    · rw [Function.update_of_ne hyx]; exact h.pcOk y hy

/-- Recording a read of the right node. -/
theorem Inv.record (h : Inv rand n L s) {i : Nat} {node : Nat × Data}
    (hn : node = snapNode rand s.log x i) :
    Inv rand n L { s with log := .read x i node :: s.log } := by
  refine ⟨h.chain, h.desc, h.bound, h.owner, h.newest, h.committed, h.pushed, h.ids, h.ptrs,
    h.entry, h.listed, h.drawn, h.pcOk, ?_, ⟨hn, h.reads⟩⟩
  intro y hy hr
  have v := h.view y hy hr
  exact ⟨v.own, v.mem, v.inRv, v.notRv, v.second, v.running⟩

theorem sameTx_pc {l : Local} {pc : Pc} (h : Reading l) (h1 : pc ≠ .idle) (h2 : pc ≠ .leave) :
    SameTx l { l with pc := pc } :=
  ⟨rfl, rfl, rfl, by simp [h1, h.1], by simp [h2, h.2]⟩

theorem reading_of_pc {l : Local} {pc : Pc} (h : l.pc = pc) (h1 : pc ≠ .idle) (h2 : pc ≠ .leave) :
    Reading l := by
  unfold Reading
  rw [h]
  exact ⟨h1, h2⟩

/-- A look at a node (`test`): the thread finds its node or goes on, and never fails. -/
theorem inv_test (h : Inv rand n L s) (hx : x < n) {node : Option Nat}
    (hpc : (s.thr x).pc = .test node) : Inv rand n L (test s x node) := by
  have hrd : Reading (s.thr x) := reading_of_pc hpc (by simp) (by simp)
  have hv := h.view x hx hrd
  have hok := h.pcOk x hx
  simp only [PcOk, hpc] at hok
  obtain ⟨hi, ht, a, d, rfl, ha, hle⟩ := hok
  obtain ⟨nx, hcell⟩ := chain_mem (h.chain _ hi) ha
  simp only at hcell
  have hiff := hv.test_iff hi ⟨a, ha⟩ hle
  rw [← ht] at hiff
  have hnext : d.version ≠ (snapNode rand s.log x (s.thr x).i).2.version →
      Inv rand n L (s.goto x (.next a)) := by
    intro hne
    refine h.move (sameTx_pc hrd (by simp) (by simp)) ?_
    exact ⟨hi, ht, d, ha, Nat.lt_of_le_of_ne hle (Ne.symm hne)⟩
  have hfound : d.version = (snapNode rand s.log x (s.thr x).i).2.version →
      Inv rand n L (found s x a d) := by
    intro he
    have hnode : (a, d) = snapNode rand s.log x (s.thr x).i :=
      desc_inj (h.desc _ hi) ha (hv.mem _ hi) he
    refine (h.record hnode).move (l := { s.thr x with pc := .copyX, dataI := d }) ?_ ?_
    · exact ⟨rfl, rfl, rfl, by simp [hrd.1], by simp [hrd.2]⟩
    · refine ⟨hi, ?_⟩
      show d = (snapNode rand s.log x (s.thr x).i).2
      rw [← hnode]
  unfold test
  simp only [hcell]
  cases hv : (s.thr x).targetVersion with
  | some w =>
    obtain ⟨h1, h2⟩ := hiff.1 w hv
    simp only [if_pos h1]
    by_cases he : d.version = w
    · rw [if_pos he]; exact hfound (h2.mp he)
    · rw [if_neg he]; exact hnext (fun e => he (h2.mpr e))
  | none =>
    have h2 := hiff.2 hv
    simp only
    by_cases he : d.version < (s.thr x).myVersion
    · rw [if_pos he]; exact hfound (h2.mp he)
    · rw [if_neg he]; exact hnext (fun e => he (h2.mpr e))

theorem inv_next (h : Inv rand n L s) (hx : x < n) {a : Nat} (hpc : (s.thr x).pc = .next a) :
    Inv rand n L (next s x a) := by
  have hrd : Reading (s.thr x) := reading_of_pc hpc (by simp) (by simp)
  have hok := h.pcOk x hx
  simp only [PcOk, hpc] at hok
  obtain ⟨hi, ht, d, ha, hlt⟩ := hok
  obtain ⟨l1, y, l2, hL, hle⟩ := desc_split (h.desc _ hi) ha ((h.view x hx hrd).mem _ hi) hlt
  have hch := h.chain _ hi
  rw [hL] at hch
  have hcell := chain_cell hch
  simp only at hcell
  unfold next
  simp only [hcell]
  refine h.move (sameTx_pc hrd (by simp) (by simp)) ?_
  refine ⟨hi, ht, y.1, y.2, rfl, ?_, hle⟩
  show y ∈ L (s.thr x).i
  rw [hL]
  simp

theorem inv_loadHead (h : Inv rand n L s) (hx : x < n) (hpc : (s.thr x).pc = .loadHead) :
    Inv rand n L (s.goto x (.test (s.head (s.thr x).i))) := by
  have hrd : Reading (s.thr x) := reading_of_pc hpc (by simp) (by simp)
  have hok := h.pcOk x hx
  simp only [PcOk, hpc] at hok
  obtain ⟨hi, ht⟩ := hok
  have hnew := h.newest _ hi
  have hfirst : s.head (s.thr x).i = some (lastPushed rand s.log (s.thr x).i).1 := by
    rw [chain_first (h.chain _ hi)]
    unfold firstAddr
    rw [hnew]
    rfl
  refine h.move (sameTx_pc hrd (by simp) (by simp)) ?_
  exact ⟨hi, ht, _, _, hfirst, head?_mem hnew,
    desc_head_ge (h.desc _ hi) hnew ((h.view x hx hrd).mem _ hi)⟩

theorem inv_copyX (h : Inv rand n L s) (hx : x < n) (hpc : (s.thr x).pc = .copyX) :
    Inv rand n L (copyX s x) := by
  have hrd : Reading (s.thr x) := reading_of_pc hpc (by simp) (by simp)
  have hok := h.pcOk x hx
  simp only [PcOk, hpc] at hok
  obtain ⟨rest, hL⟩ := h.head_of_not_leave hx hrd.2
  have hch := h.chain x hx
  rw [hL] at hch
  obtain ⟨hhead, nx, hcell, -⟩ := hch
  unfold copyX
  simp only [hhead, hcell]
  refine h.move ⟨rfl, rfl, rfl, by simp [hrd.1], by simp [hrd.2]⟩ ?_
  exact hok

theorem inv_pick (h : Inv rand n L s) {i : Nat} (hi : i < n) (hpc : (s.thr x).pc = .pick) :
    Inv rand n L (pick s x i) := by
  refine h.move ⟨rfl, rfl, rfl, by simp [hpc], by simp [hpc]⟩ ?_
  exact ⟨hi, rfl⟩

/-! ## The three shared steps -/

/-- What a snapshot does, once the head of the thread's list is known. -/
structure SnapshotSpec (rand : Nat → Nat) (x : Nat) (s s' : St) : Prop where
  execOrder : s'.execOrder = s.execOrder + 1
  active : s'.active = ⟨s.fresh, ⟨x, (lastCommitted rand s.log x).2.version⟩⟩ :: s.active
  head : s'.head = s.head
  heap : s'.heap = s.heap
  fresh : s'.fresh = s.fresh + 1
  log : s'.log = .snapshot x :: s.log
  pc : (s'.thr x).pc = .pick
  myVersion : (s'.thr x).myVersion = s.execOrder
  myNode : (s'.thr x).myNode = s.fresh
  rv : (s'.thr x).rv = (s'.active.map ActiveNode.data).reverse
  others : ∀ y, y ≠ x → s'.thr y = s.thr y

theorem snapshot_spec (h : Inv rand n L s) (hx : x < n) (hpc : (s.thr x).pc = .idle) :
    SnapshotSpec rand x s (snapshot s x) := by
  obtain ⟨rest, hL⟩ := h.head_of_not_leave hx (by simp [hpc])
  have hch := h.chain x hx
  rw [hL] at hch
  obtain ⟨hhead, nx, hcell, -⟩ := hch
  unfold snapshot
  simp only [hhead, hcell]
  refine ⟨rfl, rfl, rfl, rfl, rfl, rfl, ?_, ?_, ?_, ?_, fun y hy => ?_⟩
  · simp only [Function.update_self]
  · simp only [Function.update_self]
  · simp only [Function.update_self]
  · simp only [Function.update_self]
  · simp only [Function.update_of_ne hy]

/-- The view of a thread right after its snapshot. -/
theorem view_snapshot (h : Inv rand n L s) (hx : x < n) (hpc : (s.thr x).pc = .idle) {s' : St}
    (hs : SnapshotSpec rand x s s') : View rand n L s' x := by
  have hrv : ∀ i, (i = x ∨ InTx (s.thr i)) → i < n → ∃ e ∈ (s'.thr x).rv, e.id = i := by
    intro i hc hi
    rw [hs.rv, hs.active]
    rcases hc with rfl | ht
    · exact ⟨⟨i, _⟩, List.mem_reverse.mpr List.mem_cons_self, rfl⟩
    · obtain ⟨e, he, hid⟩ := h.listed i hi ht
      refine ⟨e.data, ?_, hid⟩
      rw [List.mem_reverse, List.mem_map]
      exact ⟨e, List.mem_cons_of_mem _ he, rfl⟩
  have hsn : ∀ i, snapNode rand s'.log x i = lastCommitted rand s.log i := by
    intro i
    rw [hs.log, snapNode_snapshot, if_pos rfl]
  refine ⟨?_, ?_, ?_, ?_, ?_, ?_⟩
  · intro y hy
    rw [hs.myVersion]
    exact (h.bound x hx y hy).2
  · intro i hi
    rw [hsn]
    exact h.committed_mem hi
  · intro e he _
    rw [hsn]
    rw [hs.rv, hs.active, List.mem_reverse, List.mem_map] at he
    obtain ⟨e', he', rfl⟩ := he
    rcases List.mem_cons.mp he' with rfl | he'
    · rfl
    · exact (h.entry e' he').2.2.2.2
  · intro i hi hne
    rw [hsn, hs.myVersion]
    have hidle : (s.thr i).pc = .idle := by
      apply Classical.byContradiction
      intro ht
      obtain ⟨e, he, hid⟩ := hrv i (Or.inr ht) hi
      exact hne e he hid
    have hhd := h.committed i hi (by simp [hidle])
    refine ⟨(h.bound i hi _ (head?_mem hhd)).2, fun y hy hlt => ?_⟩
    have := desc_head_ge (h.desc i hi) hhd hy
    omega
  · intro i hi y hy z hz h1 h2
    rw [hsn] at h1
    exact absurd h2 (h.committed_second hi hy hz h1)
  · intro i hi hr
    right
    rw [hsn]
    by_cases hix : i = x
    · subst hix
      exact ⟨h.committed i hi (by simp [hpc]), hrv i (Or.inl rfl) hi⟩
    · rw [hs.others i hix] at hr
      exact ⟨h.committed i hi hr.2, hrv i (Or.inr hr.1) hi⟩

theorem inv_snapshot (h : Inv rand n L s) (hx : x < n) (hpc : (s.thr x).pc = .idle) {s' : St}
    (hs : SnapshotSpec rand x s s') : Inv rand n L s' := by
  have hnot : ∀ e ∈ s.active, e.data.id ≠ x := by
    intro e he hid
    have := (h.entry e he).2.2.1
    rw [hid] at this
    exact this hpc
  have hpcx : (s'.thr x).pc ≠ .leave := by rw [hs.pc]; simp
  refine ⟨?_, h.desc, ?_, h.owner, ?_, ?_, ?_, ?_, ?_, ?_, ?_, ?_, ?_, ?_, ?_⟩
  · rw [hs.heap, hs.head]
    exact h.chain
  · intro i hi y hy
    rw [hs.fresh, hs.execOrder]
    have := h.bound i hi y hy
    omega
  · rw [hs.log]
    exact h.newest
  · intro i hi hl
    rw [hs.log]
    by_cases hix : i = x
    · subst hix
      exact h.committed i hi (by simp [hpc])
    · rw [hs.others i hix] at hl
      exact h.committed i hi hl
  · intro i hi hl
    rw [hs.log]
    by_cases hix : i = x
    · subst hix
      exact absurd hl hpcx
    · rw [hs.others i hix] at hl
      exact h.pushed i hi hl
  · rw [hs.active, List.map_cons, List.nodup_cons]
    refine ⟨fun hm => ?_, h.ids⟩
    obtain ⟨e, he, hid⟩ := List.mem_map.mp hm
    exact hnot e he hid
  · rw [hs.active, List.map_cons, List.nodup_cons]
    refine ⟨fun hm => ?_, h.ptrs⟩
    obtain ⟨e, he, hp⟩ := List.mem_map.mp hm
    have := (h.entry e he).1
    simp only at hp
    omega
  · intro e he
    rw [hs.active] at he
    rw [hs.fresh, hs.log, lastCommitted_snapshot]
    rcases List.mem_cons.mp he with rfl | he
    · refine ⟨Nat.lt_succ_self _, hx, ?_, hs.myNode.symm, rfl⟩
      show (s'.thr x).pc ≠ .idle
      rw [hs.pc]
      simp
    · obtain ⟨h1, h2, h3, h4, h5⟩ := h.entry e he
      rw [hs.others _ (hnot e he)]
      exact ⟨by omega, h2, h3, h4, h5⟩
  · intro y hy ht
    rw [hs.active]
    by_cases hyx : y = x
    · subst hyx
      exact ⟨_, List.mem_cons_self, rfl⟩
    · rw [hs.others y hyx] at ht
      obtain ⟨e, he, hid⟩ := h.listed y hy ht
      exact ⟨e, List.mem_cons_of_mem _ he, hid⟩
  · intro y hy ht
    rw [hs.execOrder]
    by_cases hyx : y = x
    · subst hyx
      rw [hs.myVersion]
      omega
    · rw [hs.others y hyx] at ht ⊢
      have := h.drawn y hy ht
      omega
  · intro y hy
    by_cases hyx : y = x
    · subst hyx
      unfold PcOk
      rw [hs.pc]
      trivial
    · have := h.pcOk y hy
      rw [hs.others y hyx, hs.log]
      unfold PcOk at this ⊢
      simp only [snapNode_snapshot, if_neg (Ne.symm hyx)]
      exact this
  · intro y hy hr
    by_cases hyx : y = x
    · subst hyx
      exact view_snapshot h hx hpc hs
    · rw [hs.others y hyx] at hr
      have v := h.view y hy hr
      have hsn : ∀ i, snapNode rand s'.log y i = snapNode rand s.log y i := by
        intro i
        rw [hs.log, snapNode_snapshot, if_neg (Ne.symm hyx)]
      refine ⟨?_, ?_, ?_, ?_, ?_, ?_⟩ <;> simp only [hs.others y hyx, hsn]
      · exact v.own
      · exact v.mem
      · exact v.inRv
      · exact v.notRv
      · exact v.second
      · intro i hi hri
        by_cases hix : i = x
        · left
          subst hix
          rw [hs.myVersion]
          exact h.drawn y hy hr.1
        · rw [hs.others i hix] at hri ⊢
          exact v.running i hi hri
  · rw [hs.log]
    exact h.reads

/-- The lists after `x` has pushed its new version. -/
def pushList (L : Nat → DataList) (s : St) (x : Nat) : Nat → DataList :=
  Function.update L x ((s.fresh, newData (s.thr x)) :: L x)

theorem mem_pushList {i : Nat} {y : Nat × Data} :
    y ∈ pushList L s x i ↔ y ∈ L i ∨ (i = x ∧ y = (s.fresh, newData (s.thr x))) := by
  unfold pushList
  by_cases hi : i = x
  · subst hi
    rw [Function.update_self, List.mem_cons]
    constructor
    · rintro (h | h)
      · exact Or.inr ⟨rfl, h⟩
      · exact Or.inl h
    · rintro (h | ⟨-, h⟩)
      · exact Or.inr h
      · exact Or.inl h
  · rw [Function.update_of_ne hi]
    simp [hi]

theorem pushList_of_ne {i : Nat} (hi : i ≠ x) : pushList L s x i = L i :=
  Function.update_of_ne hi _ _

theorem pushList_self : pushList L s x x = (s.fresh, newData (s.thr x)) :: L x :=
  Function.update_self _ _ _

theorem PcOk.push {y : Nat} {l : Local} {log : List Event} (h : PcOk rand n L log y l)
    {node : Nat × Data} : PcOk rand n (pushList L s x) (.push x node :: log) y l := by
  unfold PcOk at h ⊢
  cases hpc : l.pc with
  | test p =>
    rw [hpc] at h
    obtain ⟨h1, h2, a, d, h3, h4, h5⟩ := h
    exact ⟨h1, h2, a, d, h3, mem_pushList.mpr (Or.inl h4), h5⟩
  | next a =>
    rw [hpc] at h
    obtain ⟨h1, h2, d, h4, h5⟩ := h
    exact ⟨h1, h2, d, mem_pushList.mpr (Or.inl h4), h5⟩
  | _ => rw [hpc] at h; exact h

/-- The view of another reader survives the push: the new version is above the reader's, or
it is the first node above the one the reader is to read. -/
theorem view_push (h : Inv rand n L s) (hx : x < n) (hpc : (s.thr x).pc = .push) {y : Nat}
    (hy : y < n) (hyx : y ≠ x) (hr : Reading (s.thr y)) :
    View rand n (pushList L s x) (push s x) y := by
  have v := h.view y hy hr
  have hrx : Reading (s.thr x) := reading_of_pc hpc (by simp) (by simp)
  have hown := (h.view x hx hrx).own
  have hrun := v.running x hx hrx
  have hthr : (push s x).thr y = s.thr y := Function.update_of_ne hyx _ _
  have hsn : ∀ i, snapNode rand (push s x).log y i = snapNode rand s.log y i := fun _ => rfl
  refine ⟨?_, ?_, ?_, ?_, ?_, ?_⟩ <;> simp only [hthr, hsn]
  · rw [pushList_of_ne hyx]
    exact v.own
  · intro i hi
    exact mem_pushList.mpr (Or.inl (v.mem i hi))
  · exact v.inRv
  · intro i hi hne
    refine ⟨(v.notRv i hi hne).1, fun z hz hlt => ?_⟩
    rcases mem_pushList.mp hz with hz | ⟨rfl, rfl⟩
    · exact (v.notRv i hi hne).2 z hz hlt
    · rcases hrun with hrun | ⟨-, e, he, hid⟩
      · exact hrun
      · exact absurd hid (hne e he)
  · intro i hi z hz w hw h1 h2
    rcases mem_pushList.mp hw with hw' | ⟨rfl, rfl⟩
    · rcases mem_pushList.mp hz with hz' | ⟨rfl, rfl⟩
      · exact v.second i hi z hz' w hw' h1 h2
      · have h3 : w.2.version < (s.thr i).myVersion := hown w hw'
        have h4 : (s.thr i).myVersion < w.2.version := h2
        omega
    · rcases hrun with hrun | ⟨hhd, -⟩
      · exact hrun
      · rcases mem_pushList.mp hz with hz | ⟨-, rfl⟩
        · have := desc_head_ge (h.desc i hi) hhd hz
          omega
        · exact absurd h2 (Nat.lt_irrefl _)
  · intro i hi hri
    have hix : i ≠ x := by
      rintro rfl
      have hl : ((push s i).thr i).pc = .leave := by simp [push]
      exact hri.2 hl
    rw [show (push s x).thr i = s.thr i from Function.update_of_ne hix _ _] at hri ⊢
    rw [pushList_of_ne hix]
    exact v.running i hi hri

theorem inv_push (h : Inv rand n L s) (hx : x < n) (hpc : (s.thr x).pc = .push) :
    Inv rand n (pushList L s x) (push s x) := by
  have hrx : Reading (s.thr x) := reading_of_pc hpc (by simp) (by simp)
  have hown := (h.view x hx hrx).own
  have hpcx : ((push s x).thr x).pc = .leave := by simp [push]
  have hoth : ∀ y, y ≠ x → (push s x).thr y = s.thr y := fun y hy => Function.update_of_ne hy _ _
  have hne : ∀ i < n, ∀ y ∈ L i, y.1 ≠ s.fresh := by
    intro i hi y hy
    have := (h.bound i hi y hy).1
    omega
  refine ⟨?_, ?_, ?_, ?_, ?_, ?_, ?_, h.ids, h.ptrs, ?_, ?_, ?_, ?_, ?_, h.reads⟩
  · intro i hi
    by_cases hix : i = x
    · subst hix
      rw [pushList_self]
      show Chain _ (Function.update s.head i (some s.fresh) i) _
      rw [Function.update_self]
      exact chain_push (h.chain i hi) (hne i hi)
    · rw [pushList_of_ne hix]
      show Chain _ (Function.update s.head x (some s.fresh) i) _
      rw [Function.update_of_ne hix]
      refine chain_congr (fun y hy => ?_) (h.chain i hi)
      exact Function.update_of_ne (hne i hi y hy) _ _
  · intro i hi
    by_cases hix : i = x
    · subst hix
      rw [pushList_self]
      exact List.pairwise_cons.mpr ⟨fun y hy => hown y hy, h.desc i hi⟩
    · rw [pushList_of_ne hix]
      exact h.desc i hi
  · intro i hi y hy
    show y.1 < s.fresh + 1 ∧ y.2.version < s.execOrder
    rcases mem_pushList.mp hy with hy | ⟨rfl, rfl⟩
    · have := h.bound i hi y hy
      omega
    · exact ⟨Nat.lt_succ_self _, h.drawn i hi hrx.1⟩
  · intro i hi j hj y hy z hz he
    rcases mem_pushList.mp hy with hy' | ⟨rfl, rfl⟩
    · rcases mem_pushList.mp hz with hz' | ⟨rfl, rfl⟩
      · exact h.owner i hi j hj y hy' z hz' he
      · exact absurd he (hne i hi y hy')
    · rcases mem_pushList.mp hz with hz' | ⟨rfl, rfl⟩
      · exact absurd he.symm (hne j hj z hz')
      · exact ⟨rfl, rfl⟩
  · intro i hi
    show _ = some (if x = i then _ else lastPushed rand s.log i)
    by_cases hix : i = x
    · subst hix
      rw [pushList_self, if_pos rfl]
      rfl
    · rw [pushList_of_ne hix, if_neg (Ne.symm hix)]
      exact h.newest i hi
  · intro i hi hl
    have hix : i ≠ x := by
      rintro rfl
      exact hl hpcx
    rw [hoth i hix] at hl
    rw [pushList_of_ne hix]
    exact h.committed i hi hl
  · intro i hi hl
    by_cases hix : i = x
    · subst hix
      obtain ⟨rest, hL⟩ := h.head_of_not_leave hi hrx.2
      exact ⟨_, rest, by rw [pushList_self, hL]; rfl⟩
    · rw [hoth i hix] at hl
      rw [pushList_of_ne hix]
      exact h.pushed i hi hl
  · intro e he
    obtain ⟨h1, h2, h3, h4, h5⟩ := h.entry e he
    refine ⟨Nat.lt_succ_of_lt h1, h2, ?_, ?_, h5⟩
    · by_cases hix : e.data.id = x
      · show ((push s x).thr e.data.id).pc ≠ .idle
        rw [hix, hpcx]
        simp
      · rw [hoth _ hix]; exact h3
    · by_cases hix : e.data.id = x
      · rw [h4, hix]
        simp [push]
      · rw [hoth _ hix]; exact h4
  · intro y hy ht
    by_cases hyx : y = x
    · subst hyx
      exact h.listed y hy hrx.1
    · rw [hoth y hyx] at ht
      exact h.listed y hy ht
  · intro y hy ht
    by_cases hyx : y = x
    · subst hyx
      have := h.drawn y hy hrx.1
      simpa [push] using this
    · rw [hoth y hyx] at ht ⊢
      exact h.drawn y hy ht
  · intro y hy
    by_cases hyx : y = x
    · subst hyx
      unfold PcOk
      rw [hpcx]
      trivial
    · rw [hoth y hyx]
      exact (h.pcOk y hy).push
  · intro y hy hr
    have hyx : y ≠ x := by
      rintro rfl
      exact hr.2 hpcx
    rw [hoth y hyx] at hr
    exact view_push h hx hpc hy hyx hr

/-- The node the thread entered the active list with is the only one `NodeErase` takes out. -/
theorem mem_eraseP_ptr {l : List ActiveNode} {p : Nat} (hn : (l.map ActiveNode.ptr).Nodup)
    {e : ActiveNode} : e ∈ l.eraseP (fun e => e.ptr == p) ↔ e ∈ l ∧ e.ptr ≠ p := by
  induction l with
  | nil => simp
  | cons a l ih =>
    obtain ⟨h1, h2⟩ := List.nodup_cons.mp hn
    by_cases ha : a.ptr = p
    · rw [List.eraseP_cons_of_pos (by simpa using ha)]
      have hp : ∀ e ∈ l, e.ptr ≠ p := by
        intro e he hep
        exact h1 (List.mem_map.mpr ⟨e, he, by rw [hep, ha]⟩)
      constructor
      · intro he
        exact ⟨List.mem_cons_of_mem _ he, hp e he⟩
      · rintro ⟨he, hep⟩
        rcases List.mem_cons.mp he with rfl | he
        · exact absurd ha hep
        · exact he
    · rw [List.eraseP_cons_of_neg (by simpa using ha), List.mem_cons, List.mem_cons, ih h2]
      constructor
      · rintro (rfl | ⟨he, hep⟩)
        · exact ⟨Or.inl rfl, ha⟩
        · exact ⟨Or.inr he, hep⟩
      · rintro ⟨rfl | he, hep⟩
        · exact Or.inl rfl
        · exact Or.inr ⟨he, hep⟩

theorem inv_leave (h : Inv rand n L s) (hx : x < n) (hpc : (s.thr x).pc = .leave) :
    Inv rand n L (leave s x) := by
  have hpcx : ((leave s x).thr x).pc = .idle := by simp [leave]
  have hoth : ∀ y, y ≠ x → (leave s x).thr y = s.thr y := fun y hy => Function.update_of_ne hy _ _
  have hact : ∀ e, e ∈ (leave s x).active ↔ e ∈ s.active ∧ e.data.id ≠ x := by
    intro e
    show e ∈ s.active.eraseP _ ↔ _
    rw [mem_eraseP_ptr h.ptrs]
    obtain ⟨e', he', hid⟩ := h.listed x hx (by simp [InTx, hpc])
    have hp' := (h.entry e' he').2.2.2.1
    rw [hid] at hp'
    constructor
    · rintro ⟨he, hp⟩
      refine ⟨he, fun hex => hp ?_⟩
      rw [(h.entry e he).2.2.2.1, hex]
    · rintro ⟨he, hex⟩
      refine ⟨he, fun hp => hex ?_⟩
      have : e = e' := List.inj_on_of_nodup_map h.ptrs he he' (by rw [hp, hp'])
      rw [this, hid]
  have hsub : (leave s x).active.Sublist s.active := List.eraseP_sublist
  refine ⟨h.chain, h.desc, h.bound, h.owner, h.newest, ?_, ?_, (hsub.map _).nodup h.ids,
    (hsub.map _).nodup h.ptrs, ?_, ?_, ?_, ?_, ?_, h.reads⟩
  · intro i hi hl
    show _ = some (if x = i then lastPushed rand s.log i else lastCommitted rand s.log i)
    by_cases hix : i = x
    · subst hix
      rw [if_pos rfl]
      exact h.newest i hi
    · rw [hoth i hix] at hl
      rw [if_neg (Ne.symm hix)]
      exact h.committed i hi hl
  · intro i hi hl
    have hix : i ≠ x := by
      rintro rfl
      rw [hpcx] at hl
      cases hl
    rw [hoth i hix] at hl
    show ∃ p rest, L i = p :: (if x = i then lastPushed rand s.log i
      else lastCommitted rand s.log i) :: rest
    rw [if_neg (Ne.symm hix)]
    exact h.pushed i hi hl
  · intro e he
    obtain ⟨he, hix⟩ := (hact e).mp he
    obtain ⟨h1, h2, h3, h4, h5⟩ := h.entry e he
    rw [hoth _ hix]
    refine ⟨h1, h2, h3, h4, ?_⟩
    show _ = (if x = e.data.id then lastPushed rand s.log e.data.id
      else lastCommitted rand s.log e.data.id).2.version
    rw [if_neg (Ne.symm hix)]
    exact h5
  · intro y hy ht
    have hyx : y ≠ x := by
      rintro rfl
      exact ht hpcx
    rw [hoth y hyx] at ht
    obtain ⟨e, he, hid⟩ := h.listed y hy ht
    exact ⟨e, (hact e).mpr ⟨he, by rw [hid]; exact hyx⟩, hid⟩
  · intro y hy ht
    have hyx : y ≠ x := by
      rintro rfl
      exact ht hpcx
    rw [hoth y hyx] at ht ⊢
    exact h.drawn y hy ht
  · intro y hy
    by_cases hyx : y = x
    · subst hyx
      unfold PcOk
      rw [hpcx]
      trivial
    · rw [hoth y hyx]
      exact h.pcOk y hy
  · intro y hy hr
    have hyx : y ≠ x := by
      rintro rfl
      exact hr.1 hpcx
    rw [hoth y hyx] at hr
    have v := h.view y hy hr
    refine ⟨?_, v.mem, ?_, ?_, ?_, ?_⟩
    · rw [hoth y hyx]; exact v.own
    · rw [hoth y hyx]; exact v.inRv
    · rw [hoth y hyx]; exact v.notRv
    · rw [hoth y hyx]; exact v.second
    · intro i hi hri
      have hix : i ≠ x := by
        rintro rfl
        exact hri.1 hpcx
      rw [hoth i hix] at hri ⊢
      rw [hoth y hyx]
      exact v.running i hi hri

/-! ## Together -/

theorem inv_initial (rand : Nat → Nat) (n : Nat) :
    Inv rand n (fun i => [(i, initialData rand i)]) (initial rand n) := by
  refine ⟨?_, ?_, ?_, ?_, ?_, ?_, ?_, ?_, ?_, ?_, ?_, ?_, ?_, ?_, trivial⟩
  · intro i hi
    refine ⟨?_, none, ?_, rfl⟩
    · simp [initial, hi]
    · simp [initial, hi]
  · intro i _
    exact List.pairwise_singleton _ _
  · intro i hi y hy
    rw [List.mem_singleton] at hy
    subst hy
    exact ⟨hi, hi⟩
  · intro i _ j _ y hy z hz he
    rw [List.mem_singleton] at hy hz
    subst hy hz
    have hij : i = j := he
    subst hij
    exact ⟨rfl, rfl⟩
  · intro i _; rfl
  · intro i _ _; rfl
  · intro i _ hl; cases hl
  · exact List.nodup_nil
  · exact List.nodup_nil
  · intro e he; cases he
  · intro y _ ht; exact absurd rfl ht
  · intro y _ ht; exact absurd rfl ht
  · intro y _; trivial
  · intro y _ hr; exact absurd rfl hr.1

/-- The lists after a step of thread `x`. -/
def threadList (L : Nat → DataList) (s : St) (x : Nat) : Nat → DataList :=
  if (s.thr x).pc = .push then pushList L s x else L

theorem inv_thread (h : Inv rand n L s) (hx : x < n) {s' : St} (hs : updateAB s x = some s') :
    Inv rand n (threadList L s x) s' := by
  unfold updateAB at hs
  unfold threadList
  cases hpc : (s.thr x).pc with
  | idle =>
    rw [hpc] at hs
    cases hs
    exact inv_snapshot h hx hpc (snapshot_spec h hx hpc)
  | pick => rw [hpc] at hs; cases hs
  | loadHead => rw [hpc] at hs; cases hs; exact inv_loadHead h hx hpc
  | test node => rw [hpc] at hs; cases hs; exact inv_test h hx hpc
  | next a => rw [hpc] at hs; cases hs; exact inv_next h hx hpc
  | copyX => rw [hpc] at hs; cases hs; exact inv_copyX h hx hpc
  | push => rw [hpc] at hs; cases hs; exact inv_push h hx hpc
  | leave => rw [hpc] at hs; cases hs; exact inv_leave h hx hpc
  | fault f => rw [hpc] at hs; cases hs

end

end MulticorePrac.Mvcc
