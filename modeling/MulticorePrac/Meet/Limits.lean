import MulticorePrac.Meet.Classify

/-!
# Lab4: how deep a thread goes

A thread stops at the first fence after it has met all others, so the depth at which
it ends is that of its last meeting (`LastMet`).  It meets another thread at that one's
house at the latest, so no meeting is deeper than the distance of the two houses
(`depth_le_dist`).  A thread that runs alone finds the bits of the others on their
houses only, and meets each of them exactly there (`runs_alone`).
-/

namespace MulticorePrac.Meet

section
variable {t : Town} {s s' : St} {x y : Nat}

theorem Inv.depth_le_dist (hi : Inv t s) (hx : x < t.numHouse) (hy : y < t.numHouse) (hxy : x ≠ y)
    (hs : Seen s x y) : (metAt s x y).depth ≤ t.dist x y := by
  have hm := hi.met x hx y hy hxy hs
  obtain ⟨_, _, hsx⟩ := hi.searching x hx
  obtain ⟨_, _, hsy⟩ := hi.searching y hy
  obtain ⟨e, -, hat⟩ := hsy.at_of_marked hm.theirs
  have hd := at_dist ((at_iff.mp hm.level).1.trans (at_iff.mp hat).1.symm)
  by_contra hlt
  -- the thread has come to the house of `y`, and `y` has not met it there
  have hdepth := hi.depth_le hx hy hxy hs
  unfold Town.dist at hlt
  have h0 : At t.graph (t.houseOf y) 0 (t.houseOf y) := at_zero.mpr rfl
  have hmx : Marked s x (t.houseOf y) := hsx.marked_of_at (by omega) hd
  have hmy : Marked s y (t.houseOf y) := hsy.marked_of_at (Nat.zero_le _) h0
  rcases hi.both x hx y hy hxy _ hmx hmy with h | h
  · have := hi.metBy_le hx hy hxy h hmx hd
    omega
  · have h1 := hi.metBy_le hy hx (Ne.symm hxy) h hmy h0
    have h2 := (hi.met y hy x hx (Ne.symm hxy) h.1).pos
    omega

/-! ## Records stay -/

/-- A meeting stays as it was recorded. -/
theorem met_stays (hy : y < t.numHouse) {as : List Nat} (hs : Seen s x y)
    (hr : (machine t).runFrom s as = some s') :
    Seen s' x y ∧ metAt s' x y = metAt s x y := by
  refine (machine t).invariantFrom (fun _ _ => True)
    (fun u => Seen u x y ∧ metAt u x y = metAt s x y) (fun u z u' hu _ hs' => ?_) as s s' ⟨hs, rfl⟩
    ((machine t).allSteps_of_forall (fun _ _ => trivial) as s) hr
  by_cases hz : x = z
  · subst hz
    obtain ⟨h1, h2⟩ := (records_step hs' hy).keeps hu.1
    exact ⟨h1, h2.trans hu.2⟩
  · exact ⟨(seen_of_ne hs' hz).mpr hu.1, (metAt_of_ne hs' hz).trans hu.2⟩

/-! ## The last meeting -/

/-- Someone was not met before the levels after depth `d`; at the start nobody was. -/
def Pending (t : Town) (s : St) (x d : Nat) : Prop :=
  d = 0 ∨ ∃ z < t.numHouse, z ≠ x ∧ (Seen s x z → (metAt s x z).depth = d + 1)

/-- A thread that goes on after a fence has someone to meet, and ends at the next fence after the
last meeting. -/
structure LastMet (t : Town) (s : St) (x : Nat) : Prop where
  running : (s.finder x).pc ≠ .done → Pending t s x (s.finder x).currDepth
  ended : (s.finder x).pc = .done → ∃ d, (s.finder x).currDepth = d + 1 ∧ Pending t s x d

theorem Pending.step (hs : step t s x = some s') (hp : Pending t s x (s.finder x).currDepth) :
    Pending t s' x (s.finder x).currDepth := by
  rcases hp with h0 | ⟨z, hz, hzx, hp⟩
  · exact Or.inl h0
  · refine Or.inr ⟨z, hz, hzx, fun hs' => ?_⟩
    have hr := records_step hs hz
    by_cases hold : Seen s x z
    · rw [(hr.keeps hold).2]
      exact hp hold
    · obtain ⟨v, -, -, hmet⟩ := hr.first hold hs'
      rw [hmet]

theorem lastMet_step (hi : Inv t s) (hy : y < t.numHouse) (h : LastMet t s y)
    (hs : step t s x = some s') : LastMet t s' y := by
  by_cases hyx : y = x
  · subst hyx
    have hp := (h.running (not_done_of_step hs)).step hs
    obtain ⟨hdepth, hpc⟩ | ⟨hdepth, hflag, hend⟩ := depth_step hi hs
    · refine ⟨fun _ => ?_, fun hd => absurd hd hpc⟩
      rw [hdepth]
      exact hp
    · refine ⟨fun hd => Or.inr ?_, fun _ => ⟨_, hdepth, hp⟩⟩
      have hn := hend.resolve_left hd
      rw [← hflag, Ne, (inv_step hi hs).seen_all hy] at hn
      push Not at hn
      obtain ⟨z, hz, hsz⟩ := hn
      refine ⟨z, hz, ?_, fun hs' => absurd hs' hsz⟩
      rintro rfl
      exact hsz ((inv_step hi hs).own z hz)
  · have hf := finder_of_ne hs hyx
    have hp : ∀ d, Pending t s' y d ↔ Pending t s y d := by
      intro d
      unfold Pending
      simp only [seen_of_ne hs hyx, metAt_of_ne hs hyx]
    refine ⟨fun hd => ?_, fun hd => ?_⟩
    · rw [hf] at hd ⊢
      exact (hp _).mpr (h.running hd)
    · rw [hf] at hd ⊢
      obtain ⟨d, hdepth, hpend⟩ := h.ended hd
      exact ⟨d, hdepth, (hp d).mpr hpend⟩

theorem lastMet_of_reachable (hs : (machine t).Reachable s) (hx : x < t.numHouse) :
    LastMet t s x := by
  refine ((machine t).invariant (fun s => Inv t s ∧ LastMet t s x)
    ⟨inv_initial t, fun _ => Or.inl rfl, fun hd => by cases hd⟩ (fun s a s' hi hs => ?_) hs).2
  exact ⟨inv_step hi.1 hs, lastMet_step hi.1 hx hi.2 hs⟩

/-! ## A thread alone -/

/-- No thread but `x` has taken a step: the bits of the others stand on their houses. -/
def Alone (t : Town) (s : St) (x : Nat) : Prop :=
  ∀ y, y ≠ x → ∀ v, Marked s y v → v = t.houseOf y

theorem alone_initial (t : Town) (x : Nat) : Alone t (machine t).init x :=
  fun _ _ _ hv => (t.gVertexFlag_spec.mp hv).2.symm

theorem alone_step (h : Alone t s x) (hs : step t s x = some s') : Alone t s' x := by
  obtain ⟨hx, ⟨-, rfl⟩ | ⟨-, rfl⟩ | ⟨v, -, rfl⟩⟩ := step_cases hs
  · exact h
  · exact h
  · intro y hy w hw
    rcases (mark_flags (by have := t.numHouse_le; omega) y w).mp hw with hw | ⟨-, hyx⟩
    · exact h y hy w hw
    · exact absurd hyx hy

/-- Alone, a thread meets another one at its house. -/
theorem Alone.depth_eq (ha : Alone t s x) (hi : Inv t s) (hx : x < t.numHouse)
    (hy : y < t.numHouse) (hxy : x ≠ y) (hs : Seen s x y) : (metAt s x y).depth = t.dist x y := by
  have hm := hi.met x hx y hy hxy hs
  have hlevel := hm.level
  rw [ha y (Ne.symm hxy) _ hm.theirs] at hlevel
  exact (at_iff.mp hlevel).2.symm

/-- A thread can run alone to its end, and has then met every other one at its house. -/
theorem runs_alone (hl : t.Linked) (hx : x < t.numHouse) :
    ∃ s, (machine t).Reachable s ∧ (s.finder x).pc = .done ∧
      ∀ y < t.numHouse, x ≠ y → Seen s x y ∧ (metAt s x y).depth = t.dist x y := by
  obtain ⟨as, s, hr, ⟨⟨hi, -⟩, ha⟩, hd⟩ := (machine t).reaches_by
    (fun s => Bounded t s ∧ Alone t s x) (fun s => (s.finder x).pc = .done) (left t)
    (fun s hi hn => by
      obtain ⟨s', hs⟩ := moves hx hn
      exact ⟨x, s', hs, ⟨bounded_step hl hi.1 hs, alone_step hi.2 hs⟩, left_step hi.1 hs⟩)
    (machine t).init ⟨bounded_of_reachable hl (Machine.Reachable.init _), alone_initial t x⟩
  refine ⟨s, ⟨as, hr⟩, hd, fun y hy hxy => ?_⟩
  have hs := (hi.seen_all hx).mp (hi.done x hx hd) y hy
  exact ⟨hs, ha.depth_eq hi hx hy hxy hs⟩

end

end MulticorePrac.Meet
