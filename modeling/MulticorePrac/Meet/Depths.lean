import MulticorePrac.Meet.Search

/-!
# Lab4: the depths at which two searches meet

When two threads have both entered a vertex, the later one has seen the other's bit
there, so it has met it at that vertex or at one before it in its own queue (`both`).
When both have met each other, the later of the two meetings happened at a depth that
covers the vertex of the earlier one (`crossed`).  From the first fact the two depths
are at most one more than the distance, from the second they are at least the distance.
-/

namespace MulticorePrac.Meet

/-- The vertex and the depth at which thread `x` first met thread `y`. -/
def metAt (s : St) (x y : Nat) : VisitInfo := (s.finder x).info y

/-- Thread `x` met thread `y` at vertex `v` or before it. -/
def MetBy (s : St) (x y v : Nat) : Prop :=
  Seen s x y ∧ (s.finder x).queue.idxOf (metAt s x y).vid ≤ (s.finder x).queue.idxOf v

/-- The record of a first meeting of thread `x` with thread `y`. -/
structure Meeting (t : Town) (s : St) (x y : Nat) : Prop where
  level : At t.graph (t.houseOf x) (metAt s x y).depth (metAt s x y).vid
  pos : 1 ≤ (metAt s x y).depth
  mine : Marked s x (metAt s x y).vid
  theirs : Marked s y (metAt s x y).vid

/-- The depth at which thread `x` met `y` covers the vertex where `y` met `x`. -/
def Covered (t : Town) (s : St) (x y : Nat) : Prop :=
  ∃ e ≤ (metAt s x y).depth, At t.graph (t.houseOf x) e (metAt s y x).vid

structure Inv (t : Town) (s : St) : Prop where
  searching : ∀ x < t.numHouse, ∃ cur next, Searching t x s.flags (s.finder x) cur next
  mark_lt : ∀ x v, Marked s x v → x < t.numHouse
  own : ∀ x < t.numHouse, Seen s x x
  seen_lt : ∀ x < t.numHouse, ∀ y, Seen s x y → y < t.numHouse
  met : ∀ x < t.numHouse, ∀ y < t.numHouse, x ≠ y → Seen s x y → Meeting t s x y
  both : ∀ x < t.numHouse, ∀ y < t.numHouse, x ≠ y → ∀ v, Marked s x v → Marked s y v →
    MetBy s x y v ∨ MetBy s y x v
  crossed : ∀ x < t.numHouse, ∀ y < t.numHouse, x ≠ y → Seen s x y → Seen s y x →
    Covered t s x y ∨ Covered t s y x
  done : ∀ x < t.numHouse, (s.finder x).pc = .done → (s.finder x).visitedFlag = t.gFullFlag

section
variable {t : Town} {s s' : St} {x : Nat}

theorem Inv.mem_queue (hi : Inv t s) (hx : x < t.numHouse) {v : Nat} (hv : Marked s x v) :
    v ∈ (s.finder x).queue := by
  obtain ⟨cur, next, h⟩ := hi.searching x hx
  obtain ⟨e, -, hat⟩ := h.at_of_marked hv
  exact (h.mem_queue (t.house_lt hx hat)).mpr hv

/-! ## One step -/

/-- What a step of thread `x` keeps: its queue, its meetings and the marks grow, and nothing of the
other threads changes. -/
structure Grows (s s' : St) (x : Nat) : Prop where
  other : ∀ y, y ≠ x → s'.finder y = s.finder y
  seen : ∀ y, Seen s x y → Seen s' x y ∧ metAt s' x y = metAt s x y
  queue : ∃ l, (s'.finder x).queue = (s.finder x).queue ++ l
  marked : ∀ y v, Marked s y v → Marked s' y v
  marked_other : ∀ y, y ≠ x → ∀ v, Marked s' y v → Marked s y v

namespace Grows

theorem seen_other (hg : Grows s s' x) {y z : Nat} (hy : y ≠ x) : Seen s' y z ↔ Seen s y z := by
  unfold Seen
  rw [hg.other y hy]

theorem metAt_other (hg : Grows s s' x) {y z : Nat} (hy : y ≠ x) : metAt s' y z = metAt s y z := by
  unfold metAt
  rw [hg.other y hy]

theorem meeting (hg : Grows s s' x) {y z : Nat} (hs : Seen s y z) (hm : Meeting t s y z) :
    Meeting t s' y z := by
  have he : metAt s' y z = metAt s y z := by
    by_cases hy : y = x
    · subst hy; exact (hg.seen z hs).2
    · exact hg.metAt_other hy
  exact ⟨he ▸ hm.level, he ▸ hm.pos, he ▸ hg.marked _ _ hm.mine, he ▸ hg.marked _ _ hm.theirs⟩

/-- An old meeting stays where it was in the queue. -/
theorem metBy (hg : Grows s s' x) (hi : Inv t s) {y z v : Nat} (hy : y < t.numHouse)
    (hz : z < t.numHouse) (hyz : y ≠ z) (hv : Marked s y v) (h : MetBy s y z v) :
    MetBy s' y z v := by
  by_cases hyx : y = x
  · subst hyx
    obtain ⟨hs, he⟩ := hg.seen z h.1
    obtain ⟨l, hl⟩ := hg.queue
    have hm := hi.mem_queue hy (hi.met y hy z hz hyz h.1).mine
    refine ⟨hs, ?_⟩
    rw [he, hl, List.idxOf_append_of_mem hm, List.idxOf_append_of_mem (hi.mem_queue hy hv)]
    exact h.2
  · unfold MetBy
    rw [hg.seen_other hyx, hg.metAt_other hyx, hg.other y hyx]
    exact h

end Grows

/-- A step of thread `x` that marks at most vertices that were not in its queue, and meets there
everyone who was there before. -/
theorem Inv.step_of_grows (hi : Inv t s) (hx : x < t.numHouse) (hg : Grows s s' x)
    (hsearch : ∃ cur next, Searching t x s'.flags (s'.finder x) cur next)
    (hflags : ∀ y, y ≠ x → ∀ v, (s'.flags v).getLsbD y = (s.flags v).getLsbD y)
    (hseen : ∀ y, Seen s' x y → Seen s x y ∨ (y < t.numHouse ∧ Meeting t s' x y ∧
      ∀ u e, Marked s x u → At t.graph (t.houseOf x) e u → e ≤ (metAt s' x y).depth))
    (hmark : ∀ v, Marked s' x v → Marked s x v ∨ (v ∉ (s.finder x).queue ∧
      v ∈ (s'.finder x).queue ∧ ∀ y, y ≠ x → Marked s y v →
        Seen s' x y ∧ (Seen s x y ∨ (metAt s' x y).vid = v)))
    (hdone : (s'.finder x).pc = .done → (s'.finder x).visitedFlag = t.gFullFlag) : Inv t s' := by
  -- the meetings of two threads of which `x` is one, seen from `x`
  have hboth : ∀ y < t.numHouse, y ≠ x → ∀ v, Marked s' x v → Marked s' y v →
      MetBy s' x y v ∨ MetBy s' y x v := by
    intro y hy hyx v hxv hyv
    have hyv' := hg.marked_other y hyx v hyv
    rcases hmark v hxv with hxv' | ⟨hn, hmem, hmet⟩
    · rcases hi.both x hx y hy (Ne.symm hyx) v hxv' hyv' with h | h
      · exact Or.inl (hg.metBy hi hx hy (Ne.symm hyx) hxv' h)
      · exact Or.inr (hg.metBy hi hy hx hyx hyv' h)
    · obtain ⟨hs, hv⟩ := hmet y hyx hyv'
      refine Or.inl ⟨hs, ?_⟩
      rcases hv with hold | hv
      · -- met before: the vertex is in the old queue, and `v` is not
        have hm := hi.mem_queue hx (hi.met x hx y hy (Ne.symm hyx) hold).mine
        obtain ⟨l, hl⟩ := hg.queue
        rw [(hg.seen y hold).2, hl, List.idxOf_append_of_mem hm,
          List.idxOf_append_of_notMem hn]
        have := List.idxOf_lt_length_iff.mpr hm
        omega
      · rw [hv]
  have hcross : ∀ y < t.numHouse, y ≠ x → Seen s' x y → Seen s' y x →
      Covered t s' x y ∨ Covered t s' y x := by
    intro y hy hyx hxy hyx'
    have hyx'' := (hg.seen_other hyx).mp hyx'
    rcases hseen y hxy with hold | ⟨-, -, hcov⟩
    · unfold Covered
      rw [(hg.seen y hold).2, hg.metAt_other hyx]
      exact hi.crossed x hx y hy (Ne.symm hyx) hold hyx''
    · left
      have hm := (hi.met y hy x hx hyx hyx'').theirs
      obtain ⟨cur, next, h⟩ := hi.searching x hx
      obtain ⟨e, -, hat⟩ := h.at_of_marked hm
      refine ⟨e, hcov _ e hm hat, ?_⟩
      rw [hg.metAt_other hyx]
      exact hat
  refine ⟨fun y hy => ?_, fun y v hv => ?_, fun y hy => ?_, fun y hy z hz => ?_,
    fun y hy z hz hyz hs => ?_, fun y hy z hz hyz v hyv hzv => ?_,
    fun y hy z hz hyz hyz' hzy => ?_, fun y hy hpc => ?_⟩
  · by_cases hyx : y = x
    · subst hyx; exact hsearch
    · obtain ⟨cur, next, h⟩ := hi.searching y hy
      rw [hg.other y hyx]
      exact ⟨cur, next, h.congr (hflags y hyx)⟩
  · by_cases hyx : y = x
    · subst hyx; exact hx
    · exact hi.mark_lt y v (hg.marked_other y hyx v hv)
  · by_cases hyx : y = x
    · subst hyx; exact (hg.seen y (hi.own y hy)).1
    · exact (hg.seen_other hyx).mpr (hi.own y hy)
  · by_cases hyx : y = x
    · subst hyx
      rcases hseen z hz with hold | ⟨hlt, -⟩
      · exact hi.seen_lt y hy z hold
      · exact hlt
    · exact hi.seen_lt y hy z ((hg.seen_other hyx).mp hz)
  · by_cases hyx : y = x
    · subst hyx
      rcases hseen z hs with hold | ⟨-, hm, -⟩
      · exact hg.meeting hold (hi.met y hy z hz hyz hold)
      · exact hm
    · have hold := (hg.seen_other hyx).mp hs
      exact hg.meeting hold (hi.met y hy z hz hyz hold)
  · by_cases hyx : y = x
    · subst hyx; exact hboth z hz (Ne.symm hyz) v hyv hzv
    · by_cases hzx : z = x
      · subst hzx; exact (hboth y hy hyz v hzv hyv).symm
      · have hyv' := hg.marked_other y hyx v hyv
        have hzv' := hg.marked_other z hzx v hzv
        rcases hi.both y hy z hz hyz v hyv' hzv' with h | h
        · exact Or.inl (hg.metBy hi hy hz hyz hyv' h)
        · exact Or.inr (hg.metBy hi hz hy (Ne.symm hyz) hzv' h)
  · by_cases hyx : y = x
    · subst hyx; exact hcross z hz (Ne.symm hyz) hyz' hzy
    · by_cases hzx : z = x
      · subst hzx; exact (hcross y hy hyz hzy hyz').symm
      · unfold Covered
        rw [hg.metAt_other hyx, hg.metAt_other hzx]
        exact hi.crossed y hy z hz hyz ((hg.seen_other hyx).mp hyz') ((hg.seen_other hzx).mp hzy)
  · by_cases hyx : y = x
    · subst hyx; exact hdone hpc
    · rw [hg.other y hyx] at hpc ⊢
      exact hi.done y hy hpc

/-- A step that neither marks a vertex nor meets anyone. -/
theorem Inv.quiet (hi : Inv t s) (hx : x < t.numHouse) {f : Finder}
    (hv : f.visitedFlag = (s.finder x).visitedFlag) (hinfo : f.info = (s.finder x).info)
    (hq : ∃ l, f.queue = (s.finder x).queue ++ l)
    (hsearch : ∃ cur next, Searching t x s.flags f cur next)
    (hdone : f.pc = .done → f.visitedFlag = t.gFullFlag) : Inv t (s.setFinder x f) := by
  have hself : (s.setFinder x f).finder x = f := Function.update_self ..
  have hseen : ∀ y, Seen (s.setFinder x f) x y ↔ Seen s x y := by
    intro y
    unfold Seen
    rw [hself, hv]
  refine hi.step_of_grows hx ⟨fun y hy => Function.update_of_ne hy .., fun y hs => ⟨(hseen y).mpr hs, ?_⟩,
    ?_, fun y v hm => hm, fun y _ v hm => hm⟩ ?_ (fun y _ v => rfl)
    (fun y hs => Or.inl ((hseen y).mp hs)) (fun v hm => Or.inl hm) ?_
  · unfold metAt
    rw [hself, hinfo]
  · rw [hself]; exact hq
  · rw [hself]; exact hsearch
  · rw [hself]; exact hdone

theorem inv_dequeue (hi : Inv t s) (hx : x < t.numHouse) (hpc : (s.finder x).pc = .dequeue) :
    Inv t (s.setFinder x ((s.finder x).dequeue t)) := by
  obtain ⟨cur, next, h⟩ := hi.searching x hx
  cases cur with
  | nil =>
    obtain ⟨he, -, h'⟩ := h.dequeue_fence hpc
    rw [he] at h' ⊢
    refine hi.quiet hx rfl rfl ⟨_, rfl⟩ ⟨_, _, h'⟩ fun hd => ?_
    by_contra hf
    have hne : ((s.finder x).fence t).pc = .dequeue := if_neg hf
    rw [hne] at hd
    cases hd
  | cons u us =>
    obtain ⟨he, h'⟩ := h.dequeue_vertex hx hpc
    rw [he] at h' ⊢
    exact hi.quiet hx rfl rfl ⟨[], (List.append_nil _).symm⟩ ⟨_, _, h'⟩ (fun hd => by cases hd)

theorem inv_test (hi : Inv t s) (hx : x < t.numHouse) (hpc : (s.finder x).pc = .test) :
    Inv t (s.setFinder x ((s.finder x).test s.flags x)) := by
  obtain ⟨cur, next, h⟩ := hi.searching x hx
  have h' := h.test (by have := t.numHouse_le; omega) hpc
  obtain ⟨f, hf⟩ : ∃ f, f = (s.finder x).test s.flags x := ⟨_, rfl⟩
  have hsame : f.visitedFlag = (s.finder x).visitedFlag ∧ f.info = (s.finder x).info ∧
      f.queue = (s.finder x).queue ∧ f.pc ≠ .done := by
    rw [hf]
    unfold Finder.test
    split
    · exact ⟨rfl, rfl, rfl, fun hd => by cases hd⟩
    · split
      · exact ⟨rfl, rfl, rfl, fun hd => by rw [hpc] at hd; cases hd⟩
      · exact ⟨rfl, rfl, rfl, fun hd => by cases hd⟩
  rw [← hf] at h' ⊢
  exact hi.quiet hx hsame.1 hsame.2.1 ⟨[], by rw [hsame.2.2.1, List.append_nil]⟩ ⟨_, _, h'⟩
    (fun hd => absurd hd hsame.2.2.2)

/-- The state after thread `x` has marked `v`. -/
def St.mark (s : St) (x v : Nat) : St :=
  { s.setFinder x ((s.finder x).enter v (s.flags v)) with
    flags := Function.update s.flags v (s.flags v ||| FLAG x) }

theorem mark_flags {v : Nat} (hx : x < 64) (y w : Nat) :
    ((s.mark x v).flags w).getLsbD y = true ↔ (s.flags w).getLsbD y = true ∨ (w = v ∧ y = x) := by
  show (Function.update s.flags v (s.flags v ||| FLAG x) w).getLsbD y = true ↔ _
  by_cases hw : w = v
  · subst hw
    rw [Function.update_self, BitVec.getLsbD_or, getLsbD_FLAG]
    by_cases hyx : x = y
    · subst hyx; simp [hx]
    · simp [hyx, Ne.symm hyx]
  · rw [Function.update_of_ne hw]
    simp [hw]

theorem inv_mark (hi : Inv t s) (hx : x < t.numHouse) {v : Nat}
    (hpc : (s.finder x).pc = .mark v) : Inv t (s.mark x v) := by
  have hx64 : x < 64 := by have := t.numHouse_le; omega
  obtain ⟨cur, next, h⟩ := hi.searching x hx
  have hflags := mark_flags (s := s) (v := v) hx64
  have hself : (s.mark x v).finder x = (s.finder x).enter v (s.flags v) := Function.update_self ..
  have h' : Searching t x (s.mark x v).flags ((s.finder x).enter v (s.flags v)) cur (next ++ [v]) :=
    h.enter hpc _ fun w => by rw [hflags]; simp
  have hat := h'.next_at (List.mem_append_right next List.mem_cons_self)
  rw [((s.finder x).enter_rest v (s.flags v)).2.2.1] at hat
  have hnew : v ∉ (s.finder x).queue := by
    rw [h.mem_queue (t.house_lt hx hat), h.marked]
    exact not_or.mpr (h.fresh v hpc)
  have hmem : v ∈ ((s.mark x v).finder x).queue := by
    rw [hself, Finder.enter_queue]
    exact List.mem_append_right _ List.mem_cons_self
  have hseen : ∀ y < 64, (Seen (s.mark x v) x y ↔ Seen s x y ∨ Marked s y v) := by
    intro y hy
    unfold Seen
    rw [hself]
    exact Finder.enter_seen _ v _ hy
  have hinfo : ∀ y < 64, metAt (s.mark x v) x y =
      if Marked s y v ∧ ¬Seen s x y then ⟨v, (s.finder x).currDepth + 1⟩ else metAt s x y := by
    intro y hy
    unfold metAt
    rw [hself]
    exact Finder.enter_info _ v _ hy
  have hlt : ∀ y, Seen (s.mark x v) x y → y < 64 := by
    intro y hy
    exact BitVec.lt_of_getLsbD hy
  refine hi.step_of_grows hx ⟨fun y hy => Function.update_of_ne hy .., fun y hs => ?_, ?_,
    fun y w hm => (hflags y w).mpr (Or.inl hm), fun y hy w hm => ?_⟩
    (by rw [hself]; exact ⟨_, _, h'⟩) (fun y hy w => ?_) (fun y hs => ?_) (fun w hm => ?_)
    (fun hd => by rw [hself] at hd; cases hd)
  · have hy := BitVec.lt_of_getLsbD hs
    rw [hseen y hy, hinfo y hy, if_neg (fun hc => hc.2 hs)]
    exact ⟨Or.inl hs, rfl⟩
  · rw [hself, Finder.enter_queue]
    exact ⟨_, rfl⟩
  · rcases (hflags y w).mp hm with hm | ⟨-, rfl⟩
    · exact hm
    · exact absurd rfl hy
  · have := hflags y w
    simp only [hy, and_false, or_false] at this
    exact Bool.eq_iff_iff.mpr this
  · -- whoever is met for the first time is met here
    have hy := hlt y hs
    by_cases hold : Seen s x y
    · exact Or.inl hold
    · right
      have hm : Marked s y v := ((hseen y hy).mp hs).resolve_left hold
      have hmet := hinfo y hy
      rw [if_pos ⟨hm, hold⟩] at hmet
      refine ⟨hi.mark_lt y v hm, ⟨?_, ?_, ?_, ?_⟩, fun u e hu he => ?_⟩
      · rw [hmet]; exact hat
      · rw [hmet]; exact Nat.succ_pos _
      · rw [hmet]; exact (hflags x v).mpr (Or.inr ⟨rfl, rfl⟩)
      · rw [hmet]; exact (hflags y v).mpr (Or.inl hm)
      · rw [hmet]
        obtain ⟨e', hle, he'⟩ := h.at_of_marked hu
        have := he.inj he'
        show e ≤ (s.finder x).currDepth + 1
        omega
  · rcases (hflags x w).mp hm with hm | ⟨rfl, -⟩
    · exact Or.inl hm
    · refine Or.inr ⟨hnew, hmem, fun y _ hy => ?_⟩
      have hy64 := BitVec.lt_of_getLsbD hy
      refine ⟨(hseen y hy64).mpr (Or.inr hy), ?_⟩
      by_cases hold : Seen s x y
      · exact Or.inl hold
      · rw [hinfo y hy64, if_pos ⟨hy, hold⟩]
        exact Or.inr rfl

end

/-! ## Whole runs -/

section
variable {t : Town} {s s' : St} {x : Nat}

theorem step_cases (hs : step t s x = some s') : x < t.numHouse ∧
    (((s.finder x).pc = .dequeue ∧ s' = s.setFinder x ((s.finder x).dequeue t)) ∨
      ((s.finder x).pc = .test ∧ s' = s.setFinder x ((s.finder x).test s.flags x)) ∨
      ∃ v, (s.finder x).pc = .mark v ∧ s' = s.mark x v) := by
  unfold step at hs
  by_cases hx : x < t.numHouse
  · simp only [if_pos hx] at hs
    refine ⟨hx, ?_⟩
    split at hs
    · rename_i hpc
      cases hs
      exact Or.inl ⟨hpc, rfl⟩
    · rename_i hpc
      cases hs
      exact Or.inr (Or.inl ⟨hpc, rfl⟩)
    · rename_i v hpc
      cases hs
      exact Or.inr (Or.inr ⟨v, hpc, rfl⟩)
    · cases hs
  · simp only [if_neg hx] at hs
    cases hs

theorem finder_of_ne (hs : step t s x = some s') {y : Nat} (hy : y ≠ x) :
    s'.finder y = s.finder y := by
  obtain ⟨-, ⟨-, rfl⟩ | ⟨-, rfl⟩ | ⟨v, -, rfl⟩⟩ := step_cases hs <;> exact Function.update_of_ne hy ..

theorem seen_of_ne (hs : step t s x = some s') {y z : Nat} (hy : y ≠ x) :
    Seen s' y z ↔ Seen s y z := by
  unfold Seen
  rw [finder_of_ne hs hy]

theorem metAt_of_ne (hs : step t s x = some s') {y z : Nat} (hy : y ≠ x) :
    metAt s' y z = metAt s y z := by
  unfold metAt
  rw [finder_of_ne hs hy]

theorem inv_step (hi : Inv t s) (hs : step t s x = some s') : Inv t s' := by
  obtain ⟨hx, ⟨hpc, rfl⟩ | ⟨hpc, rfl⟩ | ⟨v, hpc, rfl⟩⟩ := step_cases hs
  · exact inv_dequeue hi hx hpc
  · exact inv_test hi hx hpc
  · exact inv_mark hi hx hpc

theorem inv_initial (t : Town) : Inv t (machine t).init := by
  have hseen : ∀ x y, Seen (machine t).init x y → x = y := by
    intro x y hs
    have hb : (FLAG x).getLsbD y = true := hs
    rw [getLsbD_FLAG] at hb
    simp only [Bool.and_eq_true, decide_eq_true_eq] at hb
    exact hb.2
  refine ⟨fun x hx => ⟨_, _, Searching.start t hx⟩, fun x v hm => ?_, fun x hx => ?_,
    fun x hx y hs => hseen x y hs ▸ hx, fun x _ y _ hxy hs => absurd (hseen x y hs) hxy,
    fun x hx y hy hxy v hm hm' => ?_, fun x _ y _ hxy hs => absurd (hseen x y hs) hxy,
    fun x _ hd => by cases hd⟩
  · exact (t.gVertexFlag_spec.mp hm).1
  · show (FLAG x).getLsbD x = true
    have hle := t.numHouse_le
    rw [getLsbD_FLAG]
    simp only [decide_true, Bool.and_true, decide_eq_true_eq]
    omega
  · have h1 := (t.gVertexFlag_spec.mp hm).2
    have h2 := (t.gVertexFlag_spec.mp hm').2
    exact absurd (t.houseOf_inj hx hy (h1.trans h2.symm)) hxy

theorem inv_of_reachable (hs : (machine t).Reachable s) : Inv t s :=
  (machine t).invariant (Inv t) (inv_initial t) (fun _ _ _ hi hs => inv_step hi hs) hs

end

end MulticorePrac.Meet
