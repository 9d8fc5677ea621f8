import MulticorePrac.Mvcc.Threads

/-!
# The run with GC against the run without it

`Rel rand n L M s t`: `t` is the state of the same run with every GC step
removed, with the data lists `L`; `s` differs from it only in what GC itself
holds and in the heap, where thread `i`'s list is `M i`, a sublist of `L i`.  A
missing node is older than everything a running or a later transaction reads
from that list (`Spare`).

Safety of the erasing rests on one count.  `ref_min_version` is at most the
head version of every thread, and a reader `x` has not pushed, so it is below
`x`'s own version.  Of the nodes newer than the one `x` reads, at most one can
be below `x`'s version (`View.second`).  GC keeps the first node below
`ref_min_version` and the next one, so what it erases is older.
-/

namespace MulticorePrac.Mvcc

/-- No running or later transaction reads a version below `v` from thread `i`. -/
def Spare (rand : Nat → Nat) (n : Nat) (t : St) (i v : Nat) : Prop :=
  v ≤ (lastCommitted rand t.log i).2.version ∧
    ∀ x < n, Reading (t.thr x) → v ≤ (snapNode rand t.log x i).2.version

/-- `r` is at most the head version of every thread before `k`. -/
def Scanned (n : Nat) (M : Nat → DataList) (r k : Nat) : Prop :=
  ∀ j < k, j < n → ∀ y, (M j).head? = some y → r ≤ y.2.version

/-- What GC knows at each place, with `ref_min_version = r`. -/
def GcOk (rand : Nat → Nat) (n : Nat) (M : Nat → DataList) (t : St) (g : GcPc) (r : Nat) : Prop :=
  match g with
  | .start => True
  | .nullTest k => k < n ∧ Scanned n M r k
  | .testLoad k => k < n ∧ Scanned n M r k
  | .testVersion k a => k < n ∧ Scanned n M r k ∧ ∃ d, (a, d) ∈ M k
  | .setLoad k a => k < n ∧ Scanned n M r k ∧ ∃ d, (a, d) ∈ M k ∧ d.version < r
  | .setVersion k a => k < n ∧ Scanned n M r k ∧ ∃ d, (a, d) ∈ M k ∧ d.version < r
  | .walkLoad i => i < n ∧ Scanned n M r n
  | .walkTest i p => i < n ∧ Scanned n M r n ∧ ∀ a, p = some a → ∃ d, (a, d) ∈ M i
  | .walkNext i a => i < n ∧ Scanned n M r n ∧ ∃ d, (a, d) ∈ M i
  | .skip i a => i < n ∧ Scanned n M r n ∧ ∃ d, (a, d) ∈ M i ∧ d.version < r
  | .skipNext i b => i < n ∧ Scanned n M r n ∧ ∃ d, (b, d) ∈ M i ∧ Spare rand n t i d.version
  | .erase i b p => i < n ∧ Scanned n M r n ∧ ∃ d l m, M i = l ++ (b, d) :: m ∧
      p = firstAddr m ∧ Spare rand n t i d.version
  | .fault => False

/-- `t` with the heap and the variables of GC. -/
def withGc (t : St) (h : Heap Data) (g : GcPc) (r : Nat) : St :=
  { t with heap := h, gcPc := g, refMin := r }

section
variable (t : St) (h : Heap Data) (g : GcPc) (r : Nat)

@[simp] theorem withGc_head : (withGc t h g r).head = t.head := rfl
@[simp] theorem withGc_heap : (withGc t h g r).heap = h := rfl
@[simp] theorem withGc_thr : (withGc t h g r).thr = t.thr := rfl
@[simp] theorem withGc_log : (withGc t h g r).log = t.log := rfl
@[simp] theorem withGc_active : (withGc t h g r).active = t.active := rfl
@[simp] theorem withGc_gcPc : (withGc t h g r).gcPc = g := rfl
@[simp] theorem withGc_refMin : (withGc t h g r).refMin = r := rfl

end

structure Rel (rand : Nat → Nat) (n : Nat) (L M : Nat → DataList) (s t : St) : Prop where
  inv : Inv rand n L t
  same : s = withGc t s.heap s.gcPc s.refMin
  chain : ∀ i < n, Chain s.heap (t.head i) (M i)
  sub : ∀ i < n, (M i).Sublist (L i)
  erased : ∀ i < n, ∀ e ∈ L i, e ∉ M i →
    s.heap e.1 = none ∧ Spare rand n t i (e.2.version + 1)
  gcOk : GcOk rand n M t s.gcPc s.refMin

section
variable {rand : Nat → Nat} {n : Nat} {L M : Nat → DataList} {s t : St} {x : Nat}

/-! ## What the two runs share -/

theorem Rel.desc (h : Rel rand n L M s t) {i : Nat} (hi : i < n) : Desc (M i) :=
  (h.inv.desc i hi).sublist (h.sub i hi)

theorem Rel.head (h : Rel rand n L M s t) {i : Nat} (hi : i < n) : (M i).head? = (L i).head? := by
  have h1 := chain_first (h.inv.chain i hi)
  rw [chain_first (h.chain i hi)] at h1
  have hnew := h.inv.newest i hi
  cases hL : L i with
  | nil => rw [hL] at hnew; simp at hnew
  | cons y l =>
    cases hM : M i with
    | nil =>
      rw [hL, hM] at h1
      simp at h1
    | cons z m =>
      rw [hL, hM] at h1
      simp only [firstAddr_cons, Option.some.injEq] at h1
      have hz : z ∈ L i := (h.sub i hi).subset (by rw [hM]; exact List.mem_cons_self)
      have hy : y ∈ L i := by rw [hL]; exact List.mem_cons_self
      rw [(h.inv.owner i hi i hi z hz y hy h1).2]
      rfl

/-- A node not older than one that is still to be read is not missing. -/
theorem Rel.live (h : Rel rand n L M s t) {i : Nat} (hi : i < n) (hx : x < n)
    (hr : Reading (t.thr x)) {y : Nat × Data} (hy : y ∈ L i)
    (hle : (snapNode rand t.log x i).2.version ≤ y.2.version) : y ∈ M i := by
  apply Classical.byContradiction
  intro hm
  have := (h.erased i hi y hy hm).2.2 x hx hr
  omega

/-- The head cell has the same contents in both heaps. -/
theorem Rel.headCell (h : Rel rand n L M s t) {i : Nat} (hi : i < n) :
    ∃ a d nx nx', t.head i = some a ∧ s.heap a = some ⟨nx, d⟩ ∧ t.heap a = some ⟨nx', d⟩ := by
  have hnew := h.inv.newest i hi
  have hmem := head?_mem hnew
  have hM := h.head hi
  rw [hnew] at hM
  obtain ⟨nx, h1⟩ := chain_mem (h.chain i hi) (head?_mem hM)
  obtain ⟨nx', h2⟩ := chain_mem (h.inv.chain i hi) hmem
  refine ⟨_, _, nx, nx', ?_, h1, h2⟩
  rw [chain_first (h.inv.chain i hi)]
  unfold firstAddr
  rw [hnew]
  rfl

/-- Down to a node that is still to be read, the two lists have the same links: nothing between
two neighbours can be missing. -/
theorem Rel.next_eq (h : Rel rand n L M s t) {i : Nat} (hi : i < n) (hx : x < n)
    (hr : Reading (t.thr x)) {a : Nat} {d : Data} (ha : (a, d) ∈ L i)
    (hlt : (snapNode rand t.log x i).2.version < d.version) :
    ∃ nx, t.heap a = some ⟨nx, d⟩ ∧ s.heap a = some ⟨nx, d⟩ := by
  have hsn := (h.inv.view x hx hr).mem i hi
  have hdL := h.inv.desc i hi
  have hcL := h.inv.chain i hi
  obtain ⟨l1, y, l2, hL, hy⟩ := desc_split hdL ha hsn hlt
  have hyL : y ∈ L i := by rw [hL]; simp
  have hyd : y.2.version < d.version := by
    rw [hL] at hdL
    exact (List.pairwise_cons.mp (List.pairwise_append.mp hdL).2.1).1 y List.mem_cons_self
  obtain ⟨m1, z, m2, hM, hz⟩ := desc_split (h.desc hi)
    (h.live hi hx hr ha (Nat.le_of_lt hlt)) (h.live hi hx hr hyL hy) hyd
  have hcM := h.chain i hi
  have hzd : z.2.version < d.version := by
    have hdM := h.desc hi
    rw [hM] at hdM
    exact (List.pairwise_cons.mp (List.pairwise_append.mp hdM).2.1).1 z List.mem_cons_self
  have hzL : z ∈ L i := (h.sub i hi).subset (by rw [hM]; simp)
  rw [hL] at hdL hzL hcL
  have hzy := desc_adjacent hdL hzL hz hzd
  rw [hM] at hcM
  refine ⟨some y.1, chain_cell hcL, ?_⟩
  rw [← hzy]
  exact chain_cell hcM

/-! ## Steps of an update thread -/

theorem test_withGc {h : Heap Data} {g : GcPc} {r a : Nat} {d : Data} {nx nx' : Option Nat}
    (h2 : h a = some ⟨nx, d⟩) (h3 : t.heap a = some ⟨nx', d⟩) :
    test (withGc t h g r) x (some a) = withGc (test t x (some a)) h g r := by
  unfold test
  simp only [withGc_heap, withGc_thr, h2, h3]
  cases (t.thr x).targetVersion with
  | some v =>
    simp only
    by_cases hv : v ≤ d.version
    · by_cases he : d.version = v
      · simp only [if_pos hv, if_pos he]; rfl
      · simp only [if_pos hv, if_neg he]; rfl
    · simp only [if_neg hv]; rfl
  | none =>
    simp only
    by_cases hv : d.version < (t.thr x).myVersion
    · rw [if_pos hv]; exact if_pos hv
    · rw [if_neg hv]; exact if_neg hv

/-- Both runs take the same step, except that a push also writes to the heap with GC. -/
theorem Rel.updateAB (h : Rel rand n L M s t) (hx : x < n) {s' : St} (hs : updateAB s x = some s') :
    ∃ t', updateAB t x = some t' ∧ s' = withGc t'
      (if (t.thr x).pc = .push then
        Function.update s.heap t.fresh (some ⟨t.head x, newData (t.thr x)⟩) else s.heap)
      s.gcPc s.refMin := by
  rw [h.same] at hs
  generalize hg : s.gcPc = g at hs ⊢
  generalize hrm : s.refMin = r at hs ⊢
  have hok := h.inv.pcOk x hx
  unfold PcOk at hok
  unfold Mvcc.updateAB at hs ⊢
  rw [show (withGc t s.heap g r).thr x = t.thr x from rfl] at hs
  cases hpc : (t.thr x).pc with
  | idle =>
    rw [hpc] at hs
    cases hs
    refine ⟨_, rfl, ?_⟩
    obtain ⟨a, d, nx, nx', h1, h2, h3⟩ := h.headCell hx
    simp [snapshot, withGc, h1, h2, h3]
  | pick => rw [hpc] at hs; cases hs
  | loadHead =>
    rw [hpc] at hs
    cases hs
    exact ⟨_, rfl, by simp [withGc, St.goto, St.setThr]⟩
  | test node =>
    rw [hpc] at hs hok
    cases hs
    refine ⟨_, rfl, ?_⟩
    obtain ⟨hi, -, a, d, rfl, ha, hle⟩ := hok
    obtain ⟨nx, h2⟩ := chain_mem (h.chain _ hi)
      (h.live hi hx (reading_of_pc hpc (by simp) (by simp)) ha hle)
    obtain ⟨nx', h3⟩ := chain_mem (h.inv.chain _ hi) ha
    simpa using test_withGc h2 h3
  | next a =>
    rw [hpc] at hs hok
    cases hs
    refine ⟨_, rfl, ?_⟩
    obtain ⟨hi, -, d, ha, hlt⟩ := hok
    obtain ⟨nx, h2, h3⟩ := h.next_eq hi hx (reading_of_pc hpc (by simp) (by simp)) ha hlt
    simp [next, withGc, h2, h3, St.goto, St.setThr]
  | copyX =>
    rw [hpc] at hs
    cases hs
    refine ⟨_, rfl, ?_⟩
    obtain ⟨a, d, nx, nx', h1, h2, h3⟩ := h.headCell hx
    simp [copyX, withGc, h1, h2, h3, St.setThr]
  | push =>
    rw [hpc] at hs
    cases hs
    refine ⟨_, rfl, ?_⟩
    simp [push, withGc]
  | leave =>
    rw [hpc] at hs
    cases hs
    refine ⟨_, rfl, ?_⟩
    simp [leave, withGc]
  | fault f => rw [hpc] at hs; cases hs

theorem Spare.of_same {t' : St} {i v : Nat} (h : Spare rand n t i v)
    (h1 : lastCommitted rand t'.log i = lastCommitted rand t.log i)
    (h2 : ∀ y < n, Reading (t'.thr y) →
      Reading (t.thr y) ∧ snapNode rand t'.log y i = snapNode rand t.log y i) :
    Spare rand n t' i v := by
  refine ⟨by rw [h1]; exact h.1, fun y hy hr => ?_⟩
  obtain ⟨h3, h4⟩ := h2 y hy hr
  rw [h4]
  exact h.2 y hy h3

/-- The thread that moves was reading, the others did not change. -/
theorem reading_update {l : Local} (hx : Reading (t.thr x)) {y : Nat}
    (hr : Reading (Function.update t.thr x l y)) : Reading (t.thr y) := by
  by_cases hy : y = x
  · rw [hy]; exact hx
  · rwa [Function.update_of_ne hy] at hr

/-- What nobody needs is not needed after a step of an update thread either. -/
theorem Spare.thread (hi : Inv rand n L t) (hx : x < n) {t' : St} (ht : updateAB t x = some t')
    {i v : Nat} (hin : i < n) (h : Spare rand n t i v) : Spare rand n t' i v := by
  unfold updateAB at ht
  cases hpc : (t.thr x).pc with
  | idle =>
    rw [hpc] at ht
    cases ht
    have hs := snapshot_spec hi hx hpc
    refine ⟨by rw [hs.log]; exact h.1, fun y hy hr => ?_⟩
    rw [hs.log, snapNode_snapshot]
    by_cases hyx : x = y
    · rw [if_pos hyx]; exact h.1
    · rw [if_neg hyx]
      rw [hs.others y (Ne.symm hyx)] at hr
      exact h.2 y hy hr
  | pick => rw [hpc] at ht; cases ht
  | leave =>
    rw [hpc] at ht
    cases ht
    refine ⟨?_, fun y hy hr => ?_⟩
    · show v ≤ (if x = i then lastPushed rand t.log i else lastCommitted rand t.log i).2.version
      by_cases hxi : x = i
      · rw [if_pos hxi]
        exact Nat.le_trans h.1 (desc_head_ge (hi.desc i hin) (hi.newest i hin) (hi.committed_mem hin))
      · rw [if_neg hxi]; exact h.1
    · have hyx : y ≠ x := by
        rintro rfl
        exact hr.1 (by simp [leave])
      rw [show (leave t x).thr y = t.thr y from Function.update_of_ne hyx _ _] at hr
      exact h.2 y hy hr
  | fault f => rw [hpc] at ht; cases ht
  | loadHead =>
    rw [hpc] at ht
    cases ht
    exact h.of_same rfl fun y _ hr =>
      ⟨reading_update (reading_of_pc hpc (by simp) (by simp)) hr, rfl⟩
  | test node =>
    rw [hpc] at ht
    cases ht
    have hrd : Reading (t.thr x) := reading_of_pc hpc (by simp) (by simp)
    have hgoto : ∀ pc, Spare rand n (t.goto x pc) i v := fun pc =>
      h.of_same rfl fun y _ hr => ⟨reading_update hrd hr, rfl⟩
    have hfound : ∀ a d, Spare rand n (found t x a d) i v := fun a d =>
      h.of_same rfl fun y _ hr => ⟨reading_update hrd hr, rfl⟩
    unfold test
    split
    · exact hgoto _
    · split
      · exact hgoto _
      · split
        · split
          · split
            · exact hfound _ _
            · exact hgoto _
          · exact hgoto _
        · split
          · exact hfound _ _
          · exact hgoto _
  | next a =>
    rw [hpc] at ht
    cases ht
    have hrd : Reading (t.thr x) := reading_of_pc hpc (by simp) (by simp)
    unfold next
    split
    · exact h.of_same rfl fun y _ hr => ⟨reading_update hrd hr, rfl⟩
    · exact h.of_same rfl fun y _ hr => ⟨reading_update hrd hr, rfl⟩
  | copyX =>
    rw [hpc] at ht
    cases ht
    have hrd : Reading (t.thr x) := reading_of_pc hpc (by simp) (by simp)
    obtain ⟨rest, hL⟩ := hi.head_of_not_leave hx hrd.2
    have hch := hi.chain x hx
    rw [hL] at hch
    obtain ⟨hhead, nx, hcell, -⟩ := hch
    unfold copyX
    simp only [hhead, hcell]
    exact h.of_same rfl fun y _ hr => ⟨reading_update hrd hr, rfl⟩
  | push =>
    rw [hpc] at ht
    cases ht
    exact h.of_same rfl fun y _ hr =>
      ⟨reading_update (reading_of_pc hpc (by simp) (by simp)) hr, rfl⟩

/-- What GC knows stays true while the lists grow at the front and no new need arises. -/
theorem GcOk.mono {M' : Nat → DataList} {t' : St} {g : GcPc} {r : Nat}
    (h : GcOk rand n M t g r) (hd : ∀ i < n, Desc (M' i)) (hne : ∀ i < n, M i ≠ [])
    (hM : ∀ i < n, ∃ pre, M' i = pre ++ M i)
    (hsp : ∀ i < n, ∀ v, Spare rand n t i v → Spare rand n t' i v) : GcOk rand n M' t' g r := by
  have hmem : ∀ i < n, ∀ y ∈ M i, y ∈ M' i := by
    intro i hi y hy
    obtain ⟨pre, he⟩ := hM i hi
    rw [he]
    exact List.mem_append_right _ hy
  have hsc : ∀ k, Scanned n M r k → Scanned n M' r k := by
    intro k hk j hj hjn y hy
    cases hMj : M j with
    | nil => exact absurd hMj (hne j hjn)
    | cons z m =>
      have h1 := hk j hj hjn z (by rw [hMj]; rfl)
      have h2 := desc_head_ge (hd j hjn) hy (hmem j hjn z (by rw [hMj]; exact List.mem_cons_self))
      omega
  unfold GcOk at h ⊢
  cases g with
  | start => trivial
  | nullTest k => exact ⟨h.1, hsc _ h.2⟩
  | testLoad k => exact ⟨h.1, hsc _ h.2⟩
  | testVersion k a =>
    obtain ⟨h1, h2, d, h3⟩ := h
    exact ⟨h1, hsc _ h2, d, hmem k h1 _ h3⟩
  | setLoad k a =>
    obtain ⟨h1, h2, d, h3, h4⟩ := h
    exact ⟨h1, hsc _ h2, d, hmem k h1 _ h3, h4⟩
  | setVersion k a =>
    obtain ⟨h1, h2, d, h3, h4⟩ := h
    exact ⟨h1, hsc _ h2, d, hmem k h1 _ h3, h4⟩
  | walkLoad i => exact ⟨h.1, hsc _ h.2⟩
  | walkTest i p =>
    obtain ⟨h1, h2, h3⟩ := h
    refine ⟨h1, hsc _ h2, fun a ha => ?_⟩
    obtain ⟨d, hd⟩ := h3 a ha
    exact ⟨d, hmem i h1 _ hd⟩
  | walkNext i a =>
    obtain ⟨h1, h2, d, h3⟩ := h
    exact ⟨h1, hsc _ h2, d, hmem i h1 _ h3⟩
  | skip i a =>
    obtain ⟨h1, h2, d, h3, h4⟩ := h
    exact ⟨h1, hsc _ h2, d, hmem i h1 _ h3, h4⟩
  | skipNext i b =>
    obtain ⟨h1, h2, d, h3, h4⟩ := h
    exact ⟨h1, hsc _ h2, d, hmem i h1 _ h3, hsp i h1 _ h4⟩
  | erase i b p =>
    obtain ⟨h1, h2, d, l, m, h3, h4, h5⟩ := h
    obtain ⟨pre, he⟩ := hM i h1
    refine ⟨h1, hsc _ h2, d, pre ++ l, m, ?_, h4, hsp i h1 _ h5⟩
    rw [he, h3, List.append_assoc]
  | fault => exact h

theorem Rel.ne_nil (h : Rel rand n L M s t) {i : Nat} (hi : i < n) : M i ≠ [] := by
  intro hM
  have h1 := h.head hi
  rw [hM, h.inv.newest i hi] at h1
  cases h1

theorem Rel.thread (h : Rel rand n L M s t) (hx : x < n) {s' : St}
    (hs : Mvcc.updateAB s x = some s') :
    ∃ t', Mvcc.updateAB t x = some t' ∧ Rel rand n (threadList L t x) (threadList M t x) s' t' := by
  obtain ⟨t', ht, hs'⟩ := h.updateAB hx hs
  have hinv := inv_thread h.inv hx ht
  have hsp : ∀ i < n, ∀ v, Spare rand n t i v → Spare rand n t' i v :=
    fun i hi v hv => hv.thread h.inv hx ht hi
  refine ⟨t', ht, ?_⟩
  by_cases hpc : (t.thr x).pc = .push
  · have hL : threadList L t x = pushList L t x := if_pos hpc
    have hM : threadList M t x = pushList M t x := if_pos hpc
    have ht' : t' = push t x := by
      unfold Mvcc.updateAB at ht
      rw [hpc] at ht
      exact (Option.some.inj ht).symm
    rw [hL] at hinv ⊢
    rw [hM]
    rw [if_pos hpc] at hs'
    have hne : ∀ i < n, ∀ y ∈ M i, y.1 ≠ t.fresh := by
      intro i hi y hy
      have := (h.inv.bound i hi y ((h.sub i hi).subset hy)).1
      omega
    have hsub : ∀ i < n, (pushList M t x i).Sublist (pushList L t x i) := by
      intro i hi
      by_cases hix : i = x
      · subst hix
        rw [pushList_self, pushList_self]
        exact (h.sub i hi).cons_cons _
      · rw [pushList_of_ne hix, pushList_of_ne hix]
        exact h.sub i hi
    subst hs'
    refine ⟨hinv, rfl, ?_, hsub, ?_, ?_⟩
    · intro i hi
      rw [ht']
      show Chain _ (Function.update t.head x (some t.fresh) i) _
      by_cases hix : i = x
      · subst hix
        rw [pushList_self, Function.update_self]
        exact chain_push (h.chain i hi) (hne i hi)
      · rw [pushList_of_ne hix, Function.update_of_ne hix]
        refine chain_congr (fun y hy => ?_) (h.chain i hi)
        exact Function.update_of_ne (hne i hi y hy) _ _
    · intro i hi e he hnot
      have heL : e ∈ L i := by
        rcases mem_pushList.mp he with he | ⟨hix, hnew⟩
        · exact he
        · exact absurd (mem_pushList.mpr (Or.inr ⟨hix, hnew⟩)) hnot
      have heM : e ∉ M i := fun hm => hnot (mem_pushList.mpr (Or.inl hm))
      obtain ⟨h1, h2⟩ := h.erased i hi e heL heM
      refine ⟨?_, hsp i hi _ h2⟩
      have hfr := (h.inv.bound i hi e heL).1
      rw [withGc_heap, Function.update_of_ne (by omega)]
      exact h1
    · refine h.gcOk.mono (fun i hi => (hinv.desc i hi).sublist (hsub i hi))
        (fun i hi => h.ne_nil hi) (fun i hi => ?_) hsp
      by_cases hix : i = x
      · subst hix
        exact ⟨[(t.fresh, newData (t.thr i))], pushList_self⟩
      · exact ⟨[], pushList_of_ne hix⟩
  · have hL : threadList L t x = L := if_neg hpc
    have hM : threadList M t x = M := if_neg hpc
    rw [hL] at hinv ⊢
    rw [hM]
    rw [if_neg hpc] at hs'
    subst hs'
    refine ⟨hinv, rfl, ?_, h.sub, ?_, ?_⟩
    · intro i hi
      have h1 := chain_first (hinv.chain i hi)
      rw [← chain_first (h.inv.chain i hi)] at h1
      rw [h1]
      exact h.chain i hi
    · intro i hi e he hnot
      obtain ⟨h1, h2⟩ := h.erased i hi e he hnot
      exact ⟨h1, hsp i hi _ h2⟩
    · exact h.gcOk.mono (fun i hi => h.desc hi) (fun i hi => h.ne_nil hi) (fun i _ => ⟨[], rfl⟩) hsp

theorem Rel.pick (h : Rel rand n L M s t) {i : Nat} (hi : i < n) (hpc : (s.thr x).pc = .pick) :
    Rel rand n L M (Mvcc.pick s x i) (Mvcc.pick t x i) := by
  have hthr : s.thr = t.thr := by rw [h.same]; rfl
  rw [hthr] at hpc
  have hsp : ∀ j < n, ∀ v, Spare rand n t j v → Spare rand n (Mvcc.pick t x i) j v := by
    intro j _ v hv
    exact hv.of_same rfl fun y _ hr =>
      ⟨reading_update (reading_of_pc hpc (by simp) (by simp)) hr, rfl⟩
  refine ⟨inv_pick h.inv hi hpc, ?_, h.chain, h.sub, ?_, ?_⟩
  · rw [h.same]
    rfl
  · intro j hj e he hnot
    obtain ⟨h1, h2⟩ := h.erased j hj e he hnot
    exact ⟨h1, hsp j hj _ h2⟩
  · exact h.gcOk.mono (fun i hi => h.desc hi) (fun i hi => h.ne_nil hi) (fun i _ => ⟨[], rfl⟩) hsp

/-! ## Steps of GC -/

theorem Rel.setGc (h : Rel rand n L M s t) {g : GcPc} {r : Nat} (hg : GcOk rand n M t g r) :
    Rel rand n L M { s with gcPc := g, refMin := r } t := by
  refine ⟨h.inv, ?_, h.chain, h.sub, h.erased, hg⟩
  rw [h.same]
  rfl

theorem gcOk_walkFrom {r : Nat} (hsc : Scanned n M r n) (i : Nat) :
    GcOk rand n M t (walkFrom n i) r := by
  unfold walkFrom
  split
  · next hi => exact ⟨hi, hsc⟩
  · trivial

theorem gcOk_scanFrom {r k : Nat} (hsc : Scanned n M r k) : GcOk rand n M t (scanFrom n k) r := by
  unfold scanFrom
  split
  · next hk => exact ⟨hk, hsc⟩
  · next hk => exact gcOk_walkFrom (fun j _ hjn => hsc j (by omega) hjn) 0

/-- One more head is bounded. -/
theorem Scanned.succ {r k : Nat} (hsc : Scanned n M r k)
    (hk : k < n → ∀ y, (M k).head? = some y → r ≤ y.2.version) : Scanned n M r (k + 1) := by
  intro j hj hjn y hy
  by_cases hjk : j = k
  · subst hjk
    exact hk hjn y hy
  · exact hsc j (by omega) hjn y hy

/-- **The count.**  The node after one below `ref_min_version` is not newer than anything that is
still to be read. -/
theorem Rel.spare_of_lt (h : Rel rand n L M s t) {i : Nat} (hi : i < n)
    (hsc : Scanned n M s.refMin n) {y z : Nat × Data} (hy : y ∈ M i) (hz : z ∈ M i)
    (hzy : z.2.version < y.2.version) (hlt : y.2.version < s.refMin) :
    Spare rand n t i z.2.version := by
  have hyL := (h.sub i hi).subset hy
  have hzL := (h.sub i hi).subset hz
  refine ⟨?_, fun x hx hr => ?_⟩
  · apply Classical.byContradiction
    intro hgt
    exact h.inv.committed_second hi hzL hyL (by omega) hzy
  · apply Classical.byContradiction
    intro hgt
    have v := h.inv.view x hx hr
    have h1 := v.second i hi z hzL y hyL (by omega) hzy
    have hnew := h.inv.newest x hx
    have h2 := hsc x hx hx _ (by rw [h.head hx]; exact hnew)
    have h3 := v.own _ (head?_mem hnew)
    omega

theorem Rel.headMem (h : Rel rand n L M s t) {i : Nat} (hi : i < n) :
    ∃ a d rest, s.head i = some a ∧ M i = (a, d) :: rest := by
  cases hM : M i with
  | nil => exact absurd hM (h.ne_nil hi)
  | cons y rest =>
    refine ⟨y.1, y.2, rest, ?_, rfl⟩
    have h1 := chain_first (h.chain i hi)
    rw [hM] at h1
    rw [h.same]
    exact h1

/-- The cell of a node that is not missing, and its successor. -/
theorem Rel.cell (h : Rel rand n L M s t) {i a : Nat} {d : Data} (hi : i < n) (ha : (a, d) ∈ M i) :
    ∃ l m, M i = l ++ (a, d) :: m ∧ s.heap a = some ⟨firstAddr m, d⟩ := by
  obtain ⟨l, m, hM⟩ := List.append_of_mem ha
  have hc := h.chain i hi
  rw [hM] at hc
  exact ⟨l, m, hM, chain_cell hc⟩

/-- A head seen during the scan stays a bound of the thread's newest version. -/
theorem Rel.scanned_succ (h : Rel rand n L M s t) {k a r : Nat} {d : Data} (hk : k < n)
    (hsc : Scanned n M s.refMin k) (ha : (a, d) ∈ M k) (hr : r ≤ s.refMin) (hd : r ≤ d.version) :
    Scanned n M r (k + 1) := by
  refine Scanned.succ (fun j hj hjn y hy => ?_) (fun _ y hy => ?_)
  · exact Nat.le_trans hr (hsc j hj hjn y hy)
  · exact Nat.le_trans hd (desc_head_ge (h.desc hk) hy ha)

/-- `NodeErase` takes the node after `b` out of a linked list. -/
theorem nodeErase_chain {heap : Heap Data} {p : Option Nat} {b : Nat} {d : Data} {z : Nat × Data}
    {l m : DataList} (hc : Chain heap p (l ++ (b, d) :: z :: m)) :
    nodeErase heap b z.1 = some
      (Function.update (Function.update heap b (some ⟨firstAddr m, d⟩)) z.1 none, firstAddr m) := by
  have hcb : heap b = _ := chain_cell hc
  have hcz : heap z.1 = some ⟨firstAddr m, z.2⟩ := by
    rw [List.append_cons] at hc
    exact chain_cell hc
  simp only [nodeErase, hcb, hcz]

/-- Erasing the node after `b` when nobody needs a node older than `b`. -/
theorem Rel.erase (h : Rel rand n L M s t) {i b a : Nat} {d e : Data} {l m : DataList} (hi : i < n)
    (hsc : Scanned n M s.refMin n) (hM : M i = l ++ (b, d) :: (a, e) :: m)
    (hsp : Spare rand n t i d.version) :
    Rel rand n L (Function.update M i (l ++ (b, d) :: m))
      { s with
        heap := Function.update (Function.update s.heap b (some ⟨firstAddr m, d⟩)) a none
        gcPc := .erase i b (firstAddr m) } t := by
  have hsubM : (l ++ (b, d) :: m).Sublist (M i) := by
    rw [hM]
    exact List.Sublist.append_left (List.Sublist.cons_cons _ (List.sublist_cons_self _ _)) _
  have hbM : (b, d) ∈ M i := by rw [hM]; simp
  have haM : (a, e) ∈ M i := by rw [hM]; simp
  have hlt : e.version < d.version := by
    have hd := h.desc hi
    rw [hM] at hd
    exact (List.pairwise_cons.mp (List.pairwise_append.mp hd).2.1).1 (a, e) List.mem_cons_self
  -- the two cells that change belong to thread `i`'s list only
  have hother : ∀ j < n, j ≠ i → ∀ y ∈ M j, y.1 ≠ b ∧ y.1 ≠ a := by
    intro j hj hji y hy
    have hyL := (h.sub j hj).subset hy
    refine ⟨fun he => hji ?_, fun he => hji ?_⟩
    · exact (h.inv.owner j hj i hi y hyL _ ((h.sub i hi).subset hbM) he).1
    · exact (h.inv.owner j hj i hi y hyL _ ((h.sub i hi).subset haM) he).1
  have hnodup : ((M i).map Prod.fst).Nodup := by
    rw [List.nodup_map_iff_inj_on ((h.desc hi).imp (fun hab he => by rw [he] at hab; omega))]
    intro y hy z hz he
    exact (h.inv.owner i hi i hi y ((h.sub i hi).subset hy) z ((h.sub i hi).subset hz) he).2
  refine ⟨h.inv, ?_, ?_, ?_, ?_, ?_⟩
  · rw [h.same]
    rfl
  · intro j hj
    by_cases hji : j = i
    · subst hji
      rw [Function.update_self]
      have hc := h.chain j hj
      rw [hM] at hc hnodup
      exact chain_unlink hc hnodup
    · rw [Function.update_of_ne hji]
      refine chain_congr (fun y hy => ?_) (h.chain j hj)
      obtain ⟨h1, h2⟩ := hother j hj hji y hy
      show Function.update (Function.update s.heap b _) a none y.1 = s.heap y.1
      rw [Function.update_of_ne h2, Function.update_of_ne h1]
  · intro j hj
    by_cases hji : j = i
    · subst hji
      rw [Function.update_self]
      exact hsubM.trans (h.sub j hj)
    · rw [Function.update_of_ne hji]
      exact h.sub j hj
  · intro j hj y hy hnot
    show Function.update (Function.update s.heap b _) a none y.1 = none ∧ _
    by_cases hya : y.1 = a
    · obtain ⟨rfl, rfl⟩ := h.inv.owner j hj i hi y hy _ ((h.sub i hi).subset haM) hya
      refine ⟨by rw [hya, Function.update_self], ?_⟩
      exact ⟨Nat.le_trans hlt hsp.1, fun x hx hr => Nat.le_trans hlt (hsp.2 x hx hr)⟩
    · rw [Function.update_of_ne hya]
      have hyM : y ∉ M j := by
        intro hm
        by_cases hji : j = i
        · subst hji
          rw [Function.update_self] at hnot
          rw [hM] at hm
          rcases List.mem_append.mp hm with hm | hm
          · exact hnot (List.mem_append_left _ hm)
          · rcases List.mem_cons.mp hm with rfl | hm
            · exact hnot (by simp)
            · rcases List.mem_cons.mp hm with rfl | hm
              · exact hya rfl
              · exact hnot (List.mem_append_right _ (List.mem_cons_of_mem _ hm))
        · rw [Function.update_of_ne hji] at hnot
          exact hnot hm
      obtain ⟨h1, h2⟩ := h.erased j hj y hy hyM
      refine ⟨?_, h2⟩
      have hyb : y.1 ≠ b := by
        intro he
        obtain ⟨rfl, rfl⟩ := h.inv.owner j hj i hi y hy _ ((h.sub i hi).subset hbM) he
        exact hyM hbM
      rw [Function.update_of_ne hyb]
      exact h1
  · refine ⟨hi, fun j hj hjn y hy => ?_, d, l, m, by rw [Function.update_self], rfl, hsp⟩
    by_cases hji : j = i
    · subst hji
      rw [Function.update_self] at hy
      apply hsc j hj hjn y
      rw [hM]
      cases l <;> exact hy
    · rw [Function.update_of_ne hji] at hy
      exact hsc j hj hjn y hy

/-- At the assignment to `ref_min_version`, GC reads the head that it compared. -/
def SameHead (s : St) : Prop :=
  match s.gcPc with
  | .setLoad k tested => s.head k = some tested
  | _ => True

instance (s : St) : Decidable (SameHead s) := by
  unfold SameHead
  split <;> infer_instance

theorem Rel.gc (h : Rel rand n L M s t) {m : HeadLoads} (hst : SameHead s) {s' : St}
    (hs : Mvcc.gc m n s = some s') : ∃ M', Rel rand n L M' s' t := by
  have hok := h.gcOk
  unfold GcOk at hok
  unfold Mvcc.gc at hs
  cases hg : s.gcPc with
  | start =>
    rw [hg] at hs
    cases hs
    exact ⟨M, h.setGc (gcOk_scanFrom (fun j hj => absurd hj (Nat.not_lt_zero j)))⟩
  | nullTest k =>
    rw [hg] at hs hok
    obtain ⟨hk, hsc⟩ := hok
    obtain ⟨a, d, rest, hhd, hM⟩ := h.headMem hk
    simp only [hhd] at hs
    cases m with
    | once =>
      cases hs
      exact ⟨M, h.setGc ⟨hk, hsc, d, by rw [hM]; exact List.mem_cons_self⟩⟩
    | each =>
      cases hs
      exact ⟨M, h.setGc ⟨hk, hsc⟩⟩
  | testLoad k =>
    rw [hg] at hs hok
    obtain ⟨hk, hsc⟩ := hok
    obtain ⟨a, d, rest, hhd, hM⟩ := h.headMem hk
    simp only [hhd] at hs
    cases hs
    exact ⟨M, h.setGc ⟨hk, hsc, d, by rw [hM]; exact List.mem_cons_self⟩⟩
  | testVersion k a =>
    rw [hg] at hs hok
    obtain ⟨hk, hsc, d, ha⟩ := hok
    obtain ⟨_, _, _, hcell⟩ := h.cell hk ha
    simp only [hcell] at hs
    by_cases hlt : d.version < s.refMin
    · rw [if_pos hlt] at hs
      cases m with
      | once =>
        cases hs
        exact ⟨M, h.setGc (gcOk_scanFrom
          (h.scanned_succ hk hsc ha (Nat.le_of_lt hlt) (Nat.le_refl _)))⟩
      | each =>
        cases hs
        exact ⟨M, h.setGc ⟨hk, hsc, d, ha, hlt⟩⟩
    · rw [if_neg hlt] at hs
      cases hs
      exact ⟨M, h.setGc (gcOk_scanFrom
        (h.scanned_succ hk hsc ha (Nat.le_refl _) (Nat.le_of_not_lt hlt)))⟩
  | setLoad k a =>
    have hhd : s.head k = some a := by
      unfold SameHead at hst
      rwa [hg] at hst
    rw [hg] at hs hok
    simp only [hhd] at hs
    cases hs
    exact ⟨M, h.setGc hok⟩
  | setVersion k a =>
    rw [hg] at hs hok
    obtain ⟨hk, hsc, d, ha, hlt⟩ := hok
    obtain ⟨_, _, _, hcell⟩ := h.cell hk ha
    simp only [hcell] at hs
    cases hs
    exact ⟨M, h.setGc (gcOk_scanFrom
      (h.scanned_succ hk hsc ha (Nat.le_of_lt hlt) (Nat.le_refl _)))⟩
  | walkLoad i =>
    rw [hg] at hs hok
    obtain ⟨hi, hsc⟩ := hok
    cases hs
    obtain ⟨a, d, rest, hhd, hM⟩ := h.headMem hi
    refine ⟨M, h.setGc ⟨hi, hsc, fun b hb => ⟨d, ?_⟩⟩⟩
    rw [hhd] at hb
    rw [hM, ← Option.some.inj hb]
    exact List.mem_cons_self
  | walkTest i p =>
    rw [hg] at hs hok
    obtain ⟨hi, hsc, hp⟩ := hok
    cases p with
    | none =>
      cases hs
      exact ⟨M, h.setGc (gcOk_walkFrom hsc _)⟩
    | some a =>
      obtain ⟨d, ha⟩ := hp a rfl
      obtain ⟨_, _, _, hcell⟩ := h.cell hi ha
      simp only [hcell] at hs
      by_cases hlt : d.version < s.refMin
      · rw [if_pos hlt] at hs
        cases hs
        exact ⟨M, h.setGc ⟨hi, hsc, d, ha, hlt⟩⟩
      · rw [if_neg hlt] at hs
        cases hs
        exact ⟨M, h.setGc ⟨hi, hsc, d, ha⟩⟩
  | walkNext i a =>
    rw [hg] at hs hok
    obtain ⟨hi, hsc, d, ha⟩ := hok
    obtain ⟨l, m, hM, hcell⟩ := h.cell hi ha
    simp only [hcell] at hs
    cases hs
    refine ⟨M, h.setGc ⟨hi, hsc, fun b hb => ?_⟩⟩
    obtain ⟨e, m', rfl⟩ := firstAddr_mem hb
    exact ⟨e, by rw [hM]; simp⟩
  | skip i a =>
    rw [hg] at hs hok
    obtain ⟨hi, hsc, d, ha, hlt⟩ := hok
    obtain ⟨l, m, hM, hcell⟩ := h.cell hi ha
    simp only [hcell] at hs
    cases hm : m with
    | nil =>
      rw [hm] at hs
      cases hs
      exact ⟨M, h.setGc (gcOk_walkFrom hsc _)⟩
    | cons z m' =>
      rw [hm] at hs hM
      cases hs
      have hz : z ∈ M i := by rw [hM]; simp
      have hd := h.desc hi
      rw [hM] at hd
      have hzy := (List.pairwise_cons.mp (List.pairwise_append.mp hd).2.1).1 z List.mem_cons_self
      exact ⟨M, h.setGc ⟨hi, hsc, z.2, hz, h.spare_of_lt hi hsc ha hz hzy hlt⟩⟩
  | skipNext i b =>
    rw [hg] at hs hok
    obtain ⟨hi, hsc, d, hb, hsp⟩ := hok
    obtain ⟨l, m, hM, hcell⟩ := h.cell hi hb
    simp only [hcell] at hs
    cases hs
    exact ⟨M, h.setGc ⟨hi, hsc, d, l, m, hM, rfl, hsp⟩⟩
  | erase i b p =>
    rw [hg] at hs hok
    obtain ⟨hi, hsc, d, l, m, hM, rfl, hsp⟩ := hok
    cases hm : m with
    | nil =>
      rw [hm] at hs
      cases hs
      exact ⟨M, h.setGc (gcOk_walkFrom hsc _)⟩
    | cons z m' =>
      rw [hm] at hs hM
      have hc := h.chain i hi
      rw [hM] at hc
      simp only [firstAddr_cons, nodeErase_chain hc] at hs
      cases hs
      exact ⟨_, h.erase hi hsc hM hsp⟩
  | fault =>
    rw [hg] at hok
    exact hok.elim

end

end MulticorePrac.Mvcc
