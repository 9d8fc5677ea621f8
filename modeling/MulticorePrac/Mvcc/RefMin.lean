import MulticorePrac.Mvcc.Lists

/-!
# `ref_min_version` against its documented value

The README defines `ref_min_version` as the least version among the entries of
the active list and the heads of the data lists.  `GC` looks at the heads and at
the last active entry only.  Run without interruption from its start, it computes
`refMinVersion` (`scan_alone`); this is the documented minimum exactly in the states
described by `NoneOlder`.  An entry whose thread has not pushed does no harm, as its
version is that of a head.  A thread that has pushed and is still on the list may
have entered it with a version older than all that GC looks at.
-/

namespace MulticorePrac.Mvcc

/-- `g_contexts[k].data_head->data.version`. -/
def headVersion (s : St) (k : Nat) : Option Nat :=
  (s.head k).bind fun a => (s.heap a).map fun c => c.data.version

/-- The least version of all active entries and all heads, as the README has it. -/
def documentedMin (n : Nat) (s : St) : Option Nat :=
  ((s.active.map fun e => e.data.version) ++ (List.range n).filterMap (headVersion s)).min?

/-- Lines 105-107 for the head of thread `k`. -/
def scanHead (s : St) (r k : Nat) : Nat :=
  match headVersion s k with
  | none => r
  | some v => if v < r then v else r

/-- Lines 91-108 in a state that does not change meanwhile. -/
def refMinVersion (n : Nat) (s : St) : Nat :=
  (List.range n).foldl (scanHead s) (lastVersion s.active)

/-- No thread that has pushed and is still on the active list entered it with a version older than
the last entry and all heads; with an empty active list some head is at most `INT_MAX`. -/
def NoneOlder (n : Nat) (s : St) : Prop :=
  (∀ e ∈ s.active, (s.thr e.data.id).pc = .leave →
    lastVersion s.active ≤ e.data.version ∨
      ∃ i < n, ∃ v ∈ headVersion s i, v ≤ e.data.version) ∧
  (s.active = [] → ∃ i < n, ∃ v ∈ headVersion s i, v ≤ INT_MAX)

instance (n : Nat) (s : St) : Decidable (NoneOlder n s) := by
  unfold NoneOlder
  infer_instance

section
variable {n : Nat} {L : Nat → DataList} {s : St}

theorem Sound.headVersion_eq (h : Sound n L s) {i : Nat} (hi : i < n) :
    headVersion s i = versionAt (L i) 0 := by
  obtain ⟨a, d, nx, rest, hhead, hcell, hL⟩ := h.headCell hi
  simp [headVersion, versionAt, hhead, hcell, hL]

/-! ## The scan -/

/-- What the scan of the first `n` heads leaves, from any start value. -/
theorem scan_spec (s : St) (r n : Nat) :
    (List.range n).foldl (scanHead s) r ≤ r ∧
    (∀ k < n, ∀ v, headVersion s k = some v → (List.range n).foldl (scanHead s) r ≤ v) ∧
    ((List.range n).foldl (scanHead s) r = r ∨
      ∃ k < n, headVersion s k = some ((List.range n).foldl (scanHead s) r)) := by
  induction n with
  | zero => exact ⟨Nat.le_refl _, fun k hk => absurd hk (Nat.not_lt_zero k), Or.inl rfl⟩
  | succ n ih =>
    rw [List.range_succ, List.foldl_append]
    simp only [List.foldl_cons, List.foldl_nil]
    generalize (List.range n).foldl (scanHead s) r = q at ih
    obtain ⟨h1, h2, h3⟩ := ih
    have hold : q = r ∨ ∃ k < n + 1, headVersion s k = some q := by
      rcases h3 with h3 | ⟨k, hk, h3⟩
      · exact Or.inl h3
      · exact Or.inr ⟨k, Nat.lt_succ_of_lt hk, h3⟩
    unfold scanHead
    cases hn : headVersion s n with
    | none =>
      refine ⟨h1, fun k hk v hv => ?_, hold⟩
      have hkn : k ≠ n := by
        rintro rfl
        rw [hn] at hv
        cases hv
      exact h2 k (by omega) v hv
    | some w =>
      simp only
      have hbound : ∀ q', q' ≤ q → q' ≤ w → ∀ k < n + 1, ∀ v, headVersion s k = some v → q' ≤ v := by
        intro q' hq hw k hk v hv
        by_cases hkn : k = n
        · subst hkn
          rw [hn] at hv
          cases hv
          exact hw
        · exact Nat.le_trans hq (h2 k (by omega) v hv)
      split
      · next hlt =>
        exact ⟨by omega, hbound w (by omega) (Nat.le_refl w), Or.inr ⟨n, Nat.lt_succ_self n, hn⟩⟩
      · next hge => exact ⟨h1, hbound q (Nat.le_refl q) (by omega), hold⟩

/-- GC's steps at the head of thread `k`. -/
theorem scan_round (m : HeadLoads) (rand : Nat → Nat) (h : Sound n L s) {k : Nat} (hk : k < n)
    (r : Nat) :
    ∃ j, (mvcc m rand n).runFrom { s with gcPc := .nullTest k, refMin := r } (List.replicate j .gc) =
      some { s with gcPc := scanFrom n (k + 1), refMin := scanHead s r k } := by
  obtain ⟨a, d, nx, rest, hhead, hcell, -⟩ := h.headCell hk
  have hv : headVersion s k = some d.version := by simp [headVersion, hhead, hcell]
  by_cases hlt : d.version < r
  · rw [show scanHead s r k = d.version by simp [scanHead, hv, hlt]]
    cases m with
    | once => exact ⟨2, by simp [List.replicate, Machine.runFrom, mvcc, step, gc, hhead, hcell, hlt]⟩
    | each => exact ⟨5, by simp [List.replicate, Machine.runFrom, mvcc, step, gc, hhead, hcell, hlt]⟩
  · rw [show scanHead s r k = r by simp [scanHead, hv, hlt]]
    cases m with
    | once => exact ⟨2, by simp [List.replicate, Machine.runFrom, mvcc, step, gc, hhead, hcell, hlt]⟩
    | each => exact ⟨3, by simp [List.replicate, Machine.runFrom, mvcc, step, gc, hhead, hcell, hlt]⟩

/-- GC alone, from its start to its first walk: nothing changes but its own variables. -/
theorem scan_alone (m : HeadLoads) (rand : Nat → Nat) (h : Sound n L s) (hg : s.gcPc = .start) :
    ∃ j, (mvcc m rand n).runFrom s (List.replicate (j + 1) .gc) =
      some { s with gcPc := walkFrom n 0, refMin := refMinVersion n s } := by
  -- by induction on the number of heads that have been scanned
  have hscan : ∀ k ≤ n, ∃ j, (mvcc m rand n).runFrom s (List.replicate (j + 1) .gc) =
      some { s with
        gcPc := scanFrom n k
        refMin := (List.range k).foldl (scanHead s) (lastVersion s.active) } := by
    intro k
    induction k with
    | zero =>
      intro _
      exact ⟨0, by simp [List.replicate, Machine.runFrom, mvcc, step, gc, hg]⟩
    | succ k ih =>
      intro hk
      obtain ⟨j, hj⟩ := ih (by omega)
      rw [show scanFrom n k = .nullTest k from if_pos hk] at hj
      obtain ⟨i, hi⟩ := scan_round m rand h hk
        ((List.range k).foldl (scanHead s) (lastVersion s.active))
      refine ⟨j + i, ?_⟩
      rw [show j + i + 1 = (j + 1) + i by omega, List.replicate_add, Machine.runFrom_append]
      refine ⟨_, hj, ?_⟩
      rw [hi, List.range_succ, List.foldl_append]
      rfl
  have hend := hscan n (Nat.le_refl n)
  rwa [show scanFrom n n = walkFrom n 0 from if_neg (Nat.lt_irrefl n)] at hend

theorem lastVersion_mem {active : List ActiveNode} (h : active ≠ []) :
    ∃ e ∈ active, lastVersion active = e.data.version := by
  refine ⟨active.getLast h, List.getLast_mem h, ?_⟩
  simp [lastVersion, List.getLast?_eq_some_getLast h]

theorem Sound.refMin_iff (h : Sound n L s) :
    documentedMin n s = some (refMinVersion n s) ↔ NoneOlder n s := by
  obtain ⟨hle, hheads, hfrom⟩ := scan_spec s (lastVersion s.active) n
  rw [show (List.range n).foldl (scanHead s) (lastVersion s.active) = refMinVersion n s from rfl]
    at hle hheads hfrom
  have hmem : ∀ b, b ∈ (s.active.map fun e => e.data.version) ++
      (List.range n).filterMap (headVersion s) ↔
      (∃ e ∈ s.active, e.data.version = b) ∨ ∃ i < n, headVersion s i = some b := by
    intro b
    simp [List.mem_append, List.mem_map, List.mem_filterMap, List.mem_range]
  unfold documentedMin
  rw [List.min?_eq_some_iff]
  simp only [hmem]
  constructor
  · rintro ⟨hin, hmin⟩
    refine ⟨fun e he _ => ?_, fun hnil => ?_⟩
    · have hr := hmin _ (Or.inl ⟨e, he, rfl⟩)
      rcases hfrom with hl | ⟨i, hi, hv⟩
      · exact Or.inl (by omega)
      · exact Or.inr ⟨i, hi, _, hv, hr⟩
    · rcases hin with ⟨e, he, -⟩ | ⟨i, hi, hv⟩
      · rw [hnil] at he
        cases he
      · refine ⟨i, hi, _, hv, ?_⟩
        rw [hnil] at hle
        exact hle
  · rintro ⟨hpushed, hnil⟩
    constructor
    · rcases hfrom with hl | ⟨i, hi, hv⟩
      · by_cases ha : s.active = []
        · -- the initial `INT_MAX` can only stay if a head has this version
          obtain ⟨i, hi, v, hv, hle'⟩ := hnil ha
          have hr := hheads i hi v hv
          rw [hl] at hr ⊢
          rw [show lastVersion s.active = INT_MAX by rw [ha]; rfl] at hr ⊢
          exact Or.inr ⟨i, hi, by rw [hv, Nat.le_antisymm hle' hr]⟩
        · obtain ⟨e, he, hle'⟩ := lastVersion_mem ha
          exact Or.inl ⟨e, he, by rw [hl, hle']⟩
      · exact Or.inr ⟨i, hi, hv⟩
    · rintro b (⟨e, he, rfl⟩ | ⟨i, hi, hv⟩)
      · by_cases hpc : (s.thr e.data.id).pc = .leave
        · rcases hpushed e he hpc with hl | ⟨i, hi, v, hv, hle'⟩
          · exact Nat.le_trans hle hl
          · exact Nat.le_trans (hheads i hi v hv) hle'
        · -- the entry of a thread that has not pushed is the head of its list
          have hid := (h.entry e he).2.1
          have hp := h.place e he
          rw [entryPlace_of_ne hpc, ← h.headVersion_eq hid] at hp
          exact hheads _ hid _ hp
      · exact hheads i hi b hv

end

/-- **`ref_min_version`**, computed while no other thread moves, is the documented minimum exactly
when no thread that has pushed is still on the active list with an older version. -/
theorem refMin_documented_iff (m : HeadLoads) (rand : Nat → Nat) (n : Nat) (s : St)
    (hr : (mvcc m rand n).Reachable s) (hg : s.gcPc = .start) :
    ∃ j r, (mvcc m rand n).runFrom s (List.replicate (j + 1) .gc) =
        some { s with gcPc := walkFrom n 0, refMin := r } ∧
      (documentedMin n s = some r ↔ NoneOlder n s) := by
  obtain ⟨L, h⟩ := sound_reachable hr
  obtain ⟨j, hj⟩ := scan_alone m rand h hg
  exact ⟨j, _, hj, h.refMin_iff⟩

/-- Two threads on the active list, one of them with its push behind it. -/
def bothActive : List Act :=
  [.thread 0, .thread 1, .pick 1 1, .thread 1, .thread 1, .thread 1, .thread 1]

theorem refMin_documented_bothActive :
    ∃ s, (mvcc .each (fun _ => 7) 2).run bothActive = some s ∧ (s.thr 1).pc = .leave ∧
      NoneOlder 2 s ∧ ∃ j r, (mvcc .each (fun _ => 7) 2).runFrom s (List.replicate (j + 1) .gc) =
        some { s with gcPc := walkFrom 2 0, refMin := r } ∧ documentedMin 2 s = some r := by
  have hs : (((mvcc .each (fun _ => 7) 2).run bothActive).any fun s =>
      decide (s.gcPc = .start ∧ (s.thr 1).pc = .leave ∧ NoneOlder 2 s)) = true := by
    decide
  obtain ⟨s, hr, h0⟩ := (Option.any_eq_true _ _).mp hs
  obtain ⟨hg, hpc, hold⟩ := of_decide_eq_true h0
  obtain ⟨j, r, hj, hiff⟩ := refMin_documented_iff _ _ _ s ⟨_, hr⟩ hg
  exact ⟨s, hr, hpc, hold, j, r, hj, hiff.mpr hold⟩

/-- Thread 1 enters the active list (with version 1), then thread 0 (with version 0), and thread 0
pushes. -/
def olderRun : List Act :=
  [.thread 1, .thread 0, .pick 0 0, .thread 0, .thread 0, .thread 0, .thread 0]

theorem older_entry_missed :
    ∃ s t, (mvcc .each (fun _ => 7) 2).run olderRun = some s ∧ s.gcPc = .start ∧
      (mvcc .each (fun _ => 7) 2).runFrom s (List.replicate 7 .gc) = some t ∧
      t.gcPc = walkFrom 2 0 ∧ t.refMin = 1 ∧ documentedMin 2 s = some 0 := by
  have hs : (((mvcc .each (fun _ => 7) 2).run olderRun).any fun s =>
      decide (s.gcPc = .start ∧ documentedMin 2 s = some 0) &&
        (((mvcc .each (fun _ => 7) 2).runFrom s (List.replicate 7 .gc)).any fun t =>
          decide (t.gcPc = walkFrom 2 0 ∧ t.refMin = 1))) = true := by
    decide
  obtain ⟨s, hr, h0⟩ := (Option.any_eq_true _ _).mp hs
  obtain ⟨h1, h2⟩ := Bool.and_eq_true_iff.mp h0
  obtain ⟨t, ht, h3⟩ := (Option.any_eq_true _ _).mp h2
  obtain ⟨hg, hdoc⟩ := of_decide_eq_true h1
  obtain ⟨hw, hm⟩ := of_decide_eq_true h3
  exact ⟨s, t, hr, hg, ht, hw, hm, hdoc⟩

end MulticorePrac.Mvcc
