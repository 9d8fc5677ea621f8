import MulticorePrac.ListSet.OptInvariant

/-!
# Lab11: the steps of the optimistic list

Each step of an operation keeps the invariant.  The set changes at the two writes of
`prev->next`; there the path and the ages of its nodes change too.
-/

namespace MulticorePrac.ListSet.Opt

attribute [local simp] Pc.hasPrev Pc.hasCurr

section
variable {s : St} {p : List Nat} {S : Finset Int} {age : Nat → Nat} {now : Nat} {t : Nat}

/-! ## Going along the list without locks -/

theorem inv_readHead (h : Inv s p S age now) (hpc : (s.thread t).pc = .readHead) :
    Inv (s.setThread t { s.thread t with prev := HEAD, curr := s.next HEAD, pc := .test })
      p S age now := by
  have hrange := (h.ready t).range (by rw [hpc]; decide)
  unfold Op.InRange at hrange
  have hpos : 0 < age HEAD := h.trail.pos_of_mem h.path.head_mem
  obtain ⟨h1, h2, -⟩ := h.next_ok hpos (by rw [h.head_key]; decide)
  refine h.walk (by rw [hpc]; decide) ⟨rfl, rfl⟩ (fun _ => by rw [hpc]; rfl) ⟨hpos, h2, h1, ?_⟩
    (h.owner.keep fun y => by simp [Thread.Holds, TwoLocks, hpc, Pc.hasPrev, Pc.hasCurr])
  show rank s.key HEAD < (s.thread t).op.key
  rw [rank_head]
  omega

theorem inv_test (h : Inv s p S age now) (hpc : (s.thread t).pc = .test) :
    Inv (s.setThread t { s.thread t with
      pc := if s.key (s.thread t).curr < (s.thread t).op.key then .advance else .lockPrev })
      p S age now := by
  have hplaced := h.placed t
  simp only [Placed, hpc] at hplaced
  obtain ⟨h1, h2, h3, h4⟩ := hplaced
  split
  · rename_i hlt
    exact h.goto hpc (by decide) ⟨h2, hlt⟩
  · rename_i hge
    exact h.goto hpc (by decide) ⟨h1, h2, h3, h4, Int.not_lt.mp hge⟩

theorem inv_advance (h : Inv s p S age now) (hpc : (s.thread t).pc = .advance) :
    Inv (s.setThread t { s.thread t with
      prev := (s.thread t).curr, curr := s.next (s.thread t).curr, pc := .test }) p S age now := by
  have hplaced := h.placed t
  simp only [Placed, hpc] at hplaced
  obtain ⟨hpos, hlt⟩ := hplaced
  have hrange := (h.ready t).range (by rw [hpc]; decide)
  unfold Op.InRange at hrange
  obtain ⟨h1, h2, -⟩ := h.next_ok hpos (by omega)
  exact h.walk (by rw [hpc]; decide) ⟨rfl, rfl⟩ (fun _ => by rw [hpc]; rfl)
    ⟨hpos, h2, h1, lt_of_le_of_lt (h.rank_le_key _) hlt⟩
    (h.owner.keep fun y => by simp [Thread.Holds, TwoLocks, hpc, Pc.hasPrev, Pc.hasCurr])

theorem inv_lockPrev (h : Inv s p S age now) (hpc : (s.thread t).pc = .lockPrev)
    (hfree : s.owner (s.thread t).prev = none) :
    Inv { s.setThread t { s.thread t with pc := .lockCurr } with
      owner := Function.update s.owner (s.thread t).prev (some t) } p S age now := by
  have hplaced := h.placed t
  simp only [Placed, hpc] at hplaced
  exact h.walk (by rw [hpc]; decide) ⟨rfl, rfl⟩ (fun _ => by rw [hpc]; rfl)
    ⟨hplaced.prev, hplaced.curr, hplaced.asc, hplaced.below, hplaced.above⟩
    (h.owner.lock hfree fun y => by simp [Thread.Holds, TwoLocks, hpc, Pc.hasPrev, Pc.hasCurr])

/-- `list_validate` starts at the head, which is on the path. -/
theorem inv_lockCurr (h : Inv s p S age now) (hpc : (s.thread t).pc = .lockCurr)
    (hfree : s.owner (s.thread t).curr = none) :
    Inv { s.setThread t { s.thread t with it := HEAD, pc := .valTest } with
      owner := Function.update s.owner (s.thread t).curr (some t) } p S age now := by
  have hplaced := h.placed t
  simp only [Placed, hpc] at hplaced
  have hchecked : age (s.thread t).prev = now ∨ age (s.thread t).prev < age HEAD := by
    rw [h.head_age]
    have := h.trail.le (s.thread t).prev
    omega
  exact h.walk (by rw [hpc]; decide) ⟨rfl, rfl⟩ (fun _ => by rw [hpc]; rfl)
    ⟨⟨hplaced.prev, hplaced.curr, hplaced.asc, hplaced.below, hplaced.above⟩,
      h.trail.pos_of_mem h.path.head_mem, hchecked⟩
    (h.owner.lock hfree fun y => by simp [Thread.Holds, TwoLocks, hpc, Pc.hasPrev, Pc.hasCurr])

/-! ## The validation -/

theorem Near.ne {key : Nat → Int} {l : Thread} (h : Near key age l) : l.prev ≠ l.curr := by
  intro he
  have := h.asc
  rw [he] at this
  exact lt_irrefl _ this

/-- `prev` is not the tail. -/
theorem Inv.key_prev_lt (h : Inv s p S age now) {l : Thread} (hl : Near s.key age l)
    (hop : l.op.InRange) : s.key l.prev < INT_MAX := by
  by_cases hx : l.prev = HEAD
  · rw [hx, h.head_key]
    decide
  · have := hl.below
    rw [rank_of_ne hx] at this
    exact lt_trans this hop.2

theorem inv_valTest (h : Inv s p S age now) (hpc : (s.thread t).pc = .valTest) :
    Inv (s.setThread t { s.thread t with pc := valTest s (s.thread t) }) p S age now := by
  have hplaced := h.placed t
  simp only [Placed, hpc] at hplaced
  obtain ⟨hnear, hchecked⟩ := hplaced
  have hrange := (h.ready t).range (by rw [hpc]; decide)
  unfold valTest
  by_cases hle : s.key (s.thread t).it ≤ s.key (s.thread t).prev
  · rw [if_pos hle]
    by_cases hit : (s.thread t).it = (s.thread t).prev
    · -- `prev` cannot be older than itself
      rw [if_pos hit]
      have hmem : (s.thread t).prev ∈ p := by
        refine (h.trail.mem _).mpr (hchecked.later.resolve_right fun hc => ?_)
        rw [hit] at hc
        exact Nat.lt_irrefl _ hc
      exact h.goto hpc (by decide)
        ⟨⟨hnear.prev, hnear.curr, hnear.asc, hnear.below, hnear.above⟩, hit, hmem⟩
    · rw [if_neg hit]
      have htail : (s.thread t).it ≠ TAIL := by
        intro hc
        have := h.key_prev_lt hnear hrange
        rw [hc, h.path.tail] at hle
        omega
      exact h.goto hpc (by decide)
        ⟨⟨hnear.prev, hnear.curr, hnear.asc, hnear.below, hnear.above⟩,
          ⟨hchecked.it, hchecked.later⟩, htail⟩
  · rw [if_neg hle]
    exact h.goto hpc (by decide) ⟨hnear.ne, hnear.prev, hnear.curr⟩

theorem inv_valStep (h : Inv s p S age now) (hpc : (s.thread t).pc = .valStep) :
    Inv (s.setThread t { s.thread t with it := s.next (s.thread t).it, pc := .valTest })
      p S age now := by
  have hplaced := h.placed t
  simp only [Placed, hpc] at hplaced
  obtain ⟨hnear, hchecked, htail⟩ := hplaced
  have hlast : p.getLast? ≠ some (s.thread t).it := by
    rw [h.path.last]
    exact fun hc => htail (Option.some.inj hc).symm
  obtain ⟨-, h2, h3⟩ := h.trail.next_of_pos h.path.asc hchecked.it hlast
  have hlater : age (s.thread t).prev = now ∨
      age (s.thread t).prev < age (s.next (s.thread t).it) := by
    have := h.trail.le (s.thread t).it
    rcases hchecked.later with hc | hc
    · exact Or.inl hc
    · right
      omega
  exact h.walk (by rw [hpc]; decide) ⟨rfl, rfl⟩ (fun _ => by rw [hpc]; rfl)
    ⟨⟨hnear.prev, hnear.curr, hnear.asc, hnear.below, hnear.above⟩, h2, hlater⟩
    (h.owner.keep (twoLocks_congr (by rw [hpc]; rfl) (by rw [hpc]; rfl)))

/-- A validation that succeeds finds `curr` right after `prev` on the path. -/
theorem inv_valNext (h : Inv s p S age now) (hpc : (s.thread t).pc = .valNext) :
    Inv (s.setThread t { s.thread t with
      pc := if s.next (s.thread t).it = (s.thread t).curr then .decide else .failPrev })
      p S age now := by
  have hplaced := h.placed t
  simp only [Placed, hpc] at hplaced
  obtain ⟨hnear, hit, hmem⟩ := hplaced
  have hrange := (h.ready t).range (by rw [hpc]; decide)
  by_cases hnext : s.next (s.thread t).it = (s.thread t).curr
  · rw [if_pos hnext]
    obtain ⟨b, hb⟩ := h.path.follows hmem (lt_trans hnear.below hrange.2)
    rw [hit, h.trail.links _ _ hb] at hnext
    rw [hnext] at hb
    exact h.goto hpc (by decide) ⟨hb, hnear.below, hnear.above⟩
  · rw [if_neg hnext]
    exact h.goto hpc (by decide) ⟨hnear.ne, hnear.prev, hnear.curr⟩

/-! ## The unlocks -/

theorem inv_failPrev (h : Inv s p S age now) (hpc : (s.thread t).pc = .failPrev) :
    Inv (s.unlock t (s.thread t).prev { s.thread t with pc := .failCurr }) p S age now := by
  have hplaced := h.placed t
  simp only [Placed, hpc] at hplaced
  exact h.walk (by rw [hpc]; decide) ⟨rfl, rfl⟩ (fun _ => by rw [hpc]; rfl) hplaced.2.2
    (h.owner.unlock (twoLocks_prev (by rw [hpc]; rfl))
      (twoLocks_unlockPrev hplaced.1 (by rw [hpc]; rfl) (by rw [hpc]; rfl) rfl rfl))

theorem inv_failCurr (h : Inv s p S age now) (hpc : (s.thread t).pc = .failCurr) :
    Inv (s.unlock t (s.thread t).curr { s.thread t with pc := .readHead }) p S age now :=
  h.walk (by rw [hpc]; decide) ⟨rfl, rfl⟩ (fun _ => by rw [hpc]; rfl) trivial
    (h.owner.unlock (twoLocks_curr (by rw [hpc]; rfl))
      (twoLocks_unlockCurr (by rw [hpc]; rfl) (by rw [hpc]; rfl) rfl rfl))

theorem inv_unlockPrev (h : Inv s p S age now) (hpc : (s.thread t).pc = .unlockPrev) :
    Inv (s.unlock t (s.thread t).prev { s.thread t with pc := .unlockCurr }) p S age now := by
  have hplaced := h.placed t
  simp only [Placed, hpc] at hplaced
  exact h.walk (by rw [hpc]; decide) ⟨rfl, rfl⟩ (fun hc => by cases hc) hplaced.2.2
    (h.owner.unlock (twoLocks_prev (by rw [hpc]; rfl))
      (twoLocks_unlockPrev hplaced.1 (by rw [hpc]; rfl) (by rw [hpc]; rfl) rfl rfl))

theorem inv_unlockCurr (h : Inv s p S age now) (hpc : (s.thread t).pc = .unlockCurr) :
    Inv (s.unlock t (s.thread t).curr { s.thread t with pc := .ret }) p S age now :=
  h.walk (by rw [hpc]; decide) ⟨rfl, rfl⟩ (fun hc => by cases hc) trivial
    (h.owner.unlock (twoLocks_curr (by rw [hpc]; rfl))
      (twoLocks_unlockCurr (by rw [hpc]; rfl) (by rw [hpc]; rfl) rfl rfl))

/-! ## The decision -/

/-- A decision that ends the operation without a change of the list. -/
theorem Inv.giveUp (h : Inv s p S age now) (hpc : (s.thread t).pc = .decide) (r : Bool) :
    Inv (s.setThread t { s.thread t with ret := r, pc := .unlockPrev }) p S age now := by
  have hplaced := h.placed t
  simp only [Placed, hpc] at hplaced
  exact h.walk (by rw [hpc]; decide) ⟨rfl, rfl⟩ (fun hc => by cases hc)
    ⟨h.path.ne hplaced.follows, h.pos_of_follows hplaced.follows⟩
    (h.owner.keep (twoLocks_congr (by rw [hpc]; rfl) (by rw [hpc]; rfl)))

/-- Whether the key of the operation is in the set is seen at `curr`. -/
theorem Inv.mem_iff (h : Inv s p S age now) (hpc : (s.thread t).pc ≠ .idle)
    (hb : Between s.key p (s.thread t)) :
    (s.thread t).op.key ∈ S ↔ s.key (s.thread t).curr = (s.thread t).op.key := by
  have hrange := (h.ready t).range hpc
  exact h.path.mem_iff hb.follows hb.below hb.above hrange.1 hrange.2

theorem decideStep_eq (l : Thread) : decideStep s l = (decision l.op (s.key l.curr)).elim
    { l with pc := if l.op.needsNode then .linkNode else .readUnlink }
    fun r => { l with ret := r, pc := .unlockPrev } := by
  unfold decideStep decision
  cases l.op with
  | add k | remove k => dsimp only; split <;> rfl
  | contains k => rfl

/-- The decision is right: an operation that ends here has the result that it has on the set, and
leaves the set as it is. -/
theorem inv_decide (h : Inv s p S age now) (hpc : (s.thread t).pc = .decide) :
    Inv (s.setThread t (decideStep s (s.thread t))) p S age now ∧
      (decideStep s (s.thread t)).calls = (s.thread t).calls ∧
      ((decideStep s (s.thread t)).phase = .running (s.thread t).op ∨
        ((decideStep s (s.thread t)).phase =
            .decided (s.thread t).op (setObject.apply S (s.thread t).op).2 ∧
          (setObject.apply S (s.thread t).op).1 = S)) := by
  have hplaced := h.placed t
  simp only [Placed, hpc] at hplaced
  have hmem := h.mem_iff (by rw [hpc]; decide) hplaced
  obtain ⟨hf, hlt, hle⟩ := hplaced
  cases hd : decision (s.thread t).op (s.key (s.thread t).curr) with
  | some r =>
    rw [decideStep_eq, hd, decision_some hmem hd]
    exact ⟨h.giveUp hpc r, rfl, Or.inr ⟨rfl, rfl⟩⟩
  | none =>
    rw [decideStep_eq, hd, Option.elim_none]
    rcases decision_none hd with ⟨hop, hk⟩ | ⟨hop, hk⟩
    · rw [if_pos (by rw [hop]; rfl)]
      exact ⟨h.goto hpc (by decide) ⟨⟨hf, hlt, hle⟩, hk, hop⟩, rfl, Or.inl rfl⟩
    · rw [if_neg (by rw [hop]; exact Bool.false_ne_true)]
      exact ⟨h.goto hpc (by decide) ⟨⟨hf, hlt, hle⟩, hk, hop⟩, rfl, Or.inl rfl⟩

theorem inv_readUnlink (h : Inv s p S age now) (hpc : (s.thread t).pc = .readUnlink) :
    Inv (s.setThread t { s.thread t with tmp := s.next (s.thread t).curr, pc := .unlink })
      p S age now := by
  have hplaced := h.placed t
  simp only [Placed, hpc] at hplaced
  obtain ⟨hb, hkey, hop⟩ := hplaced
  have hrange := (h.ready t).range (by rw [hpc]; decide)
  have hlt : rank s.key (s.thread t).curr < INT_MAX := by
    rw [h.path.rank_right hb.follows, hkey]
    exact hrange.2
  obtain ⟨b, hfb⟩ := h.path.follows hb.follows.right_mem hlt
  refine h.walk (by rw [hpc]; decide) ⟨rfl, rfl⟩ (fun hc => by cases hc)
    ⟨⟨hb.follows, hb.below, hb.above⟩, hkey, hop, ?_⟩
    (h.owner.keep (twoLocks_congr (by rw [hpc]; rfl) (by rw [hpc]; rfl)))
  show Follows p (s.thread t).curr (s.next (s.thread t).curr)
  rw [h.trail.links _ _ hfb]
  exact hfb

/-! ## Calls and returns -/

/-- A step of a thread that has no locks, and nothing of its own after it. -/
theorem Inv.outside (h : Inv s p S age now) {l : Thread} {hist : List (Event Op Bool)} {a : Pc}
    (hpc : (s.thread t).pc = a) (ha : a.hasPrev = false ∧ a.hasCurr = false)
    (hl : l.pc.hasPrev = false ∧ l.pc.hasCurr = false) (hplaced : Placed s.key s.next p age now l)
    (hready : Ready s.key l) (hnone : ∀ x, ¬l.Owns x) :
    Inv { s.setThread t l with hist := hist } p S age now := by
  subst hpc
  exact ⟨h.toThreads.outside (not_twoLocks ha.1 ha.2) (not_twoLocks hl.1 hl.2) hplaced hready hnone,
    h.path, h.trail, h.head_key, h.live⟩

theorem inv_ret (h : Inv s p S age now) (hpc : (s.thread t).pc = .ret) :
    Inv { s.setThread t { s.thread t with calls := (s.thread t).calls + 1, pc := .idle } with
      hist := s.hist ++ [.ret (t, (s.thread t).calls) (s.thread t).ret] } p S age now := by
  refine h.outside hpc ⟨rfl, rfl⟩ ⟨rfl, rfl⟩ trivial (.of_idle rfl rfl) ?_
  rintro x ⟨hc, -⟩
  cases hc

theorem inv_call (h : Inv s p S age now) (hpc : (s.thread t).pc = .idle) {op : Op}
    (hop : op.InRange) :
    Inv { s.setThread t { s.thread t with
        op := op
        pc := if op.needsNode then .malloc else .readHead } with
      hist := s.hist ++ [.call (t, (s.thread t).calls) op] } p S age now := by
  by_cases hn : op.needsNode = true
  · simp only [if_pos hn]
    refine h.outside hpc ⟨rfl, rfl⟩ ⟨rfl, rfl⟩ trivial ⟨fun _ => hop, fun hc => by cases hc⟩ ?_
    rintro x ⟨hc, -⟩
    cases hc
  · simp only [if_neg hn]
    refine h.outside hpc ⟨rfl, rfl⟩ ⟨rfl, rfl⟩ trivial ⟨fun _ => hop, fun _ hc => absurd hc hn⟩ ?_
    rintro x ⟨-, hc, -⟩
    exact absurd hc hn

/-! ## Steps that change nodes -/

/-- `malloc` returns an address that no thread can be on. -/
theorem inv_malloc (h : Inv s p S age now) (hpc : (s.thread t).pc = .malloc) {x junk : Nat}
    (hx : s.live x = false) :
    Inv { s.setThread t { s.thread t with node := x, pc := .readHead } with
      key := Function.update s.key x (s.thread t).op.key
      next := Function.update s.next x junk
      owner := Function.update s.owner x none
      live := Function.update s.live x true } p S age now := by
  have hne : ∀ y, s.live y = true → y ≠ x := fun _ => State.ne_of_live hx
  have hage : ∀ y, 0 < age y → y ≠ x := fun y hy => hne y (h.live y hy)
  have hx0 : age x = 0 := Nat.eq_zero_of_not_pos fun hc => hage x hc rfl
  have hkey : ∀ y, 0 < age y → Function.update s.key x (s.thread t).op.key y = s.key y :=
    fun y hy => Function.update_of_ne (hage y hy) ..
  have hrank : ∀ y, 0 < age y →
      rank (Function.update s.key x (s.thread t).op.key) y = rank s.key y := by
    intro y hy
    unfold rank
    rw [hkey y hy]
  refine ⟨h.toThreads.malloc hx (fun u y hy => h.live y (h.pos_of_holds hy)) trivial
    (fun u _ => (h.placed u).mono ⟨fun _ => h.trail.pos_of_mem, hkey, fun _ hy => hy,
      fun _ _ _ _ hy => hy, fun _ _ _ hf => hf, fun _ _ hm => hm⟩ fun hc => ?_)
    ⟨fun _ => (h.ready t).range (by rw [hpc]; decide), fun _ _ => Function.update_self ..⟩
    (fun u _ => (h.ready u).congr fun h1 h2 => ?_)
    (twoLocks_congr (by rw [hpc]; rfl) (by rw [hpc]; rfl)) hx0 (fun y hy => hy.2.2),
    h.path.congr fun y hy => hkey y (h.trail.pos_of_mem hy),
    h.trail.congr hrank fun y hy => Function.update_of_ne (hage y hy) .., ?_, fun y hy => ?_⟩
  · -- the node of another thread is allocated
    have hp := h.placed u
    simp only [Placed, hc] at hp
    have hown : (s.thread u).Owns (s.thread u).node :=
      ⟨by rw [hc]; rfl, by rw [hp.2.2.1]; rfl, rfl⟩
    exact Function.update_of_ne (hne _ (h.owns u _ hown).1) ..
  · exact Function.update_of_ne (hne _ (h.owns u _ ⟨h1, h2, rfl⟩).1) ..
  · exact (hkey HEAD (h.trail.pos_of_mem h.path.head_mem)).trans h.head_key
  · show Function.update s.live x true y = true
    rw [Function.update_of_ne (hage y hy)]
    exact h.live y hy

/-- `node->next = curr`: the node is not linked yet. -/
theorem inv_linkNode (h : Inv s p S age now) (hpc : (s.thread t).pc = .linkNode) :
    Inv (s.write t (s.thread t).node (s.thread t).curr { s.thread t with pc := .linkPrev })
      p S age now := by
  have hplaced := h.placed t
  simp only [Placed, hpc] at hplaced
  obtain ⟨hb, hkey, hop⟩ := hplaced
  have hown : (s.thread t).Owns (s.thread t).node :=
    ⟨by rw [hpc]; rfl, by rw [hop]; rfl, rfl⟩
  have hzero := (h.owns t _ hown).2
  have howns : ∀ x, ({ s.thread t with pc := .linkPrev } : Thread).Owns x → (s.thread t).Owns x := by
    rintro x ⟨-, h2, rfl⟩
    exact hown
  refine ⟨h.toThreads.move rfl ⟨⟨hb.follows, hb.below, hb.above⟩, hkey, hop, Function.update_self ..⟩
    (fun u hu => (h.placed u).mono ⟨fun _ => h.trail.pos_of_mem, fun _ _ => rfl, fun _ hy => hy,
      fun _ _ _ _ hy => hy, fun _ _ _ hf => hf, fun _ _ hm => hm⟩
      fun hc => Function.update_of_ne ?_ ..)
    ((h.ready t).of (by rw [hpc]; decide) rfl rfl (fun _ => by rw [hpc]; rfl)) (fun u _ => h.ready u)
    (h.owner.keep (twoLocks_congr (by rw [hpc]; rfl) (by rw [hpc]; rfl)))
    (fun x hx => h.owns t x (howns x hx)) (fun u _ => h.owns u)
    (fun x u hx hu => h.owns_inj u t x hu (howns x hx)),
    h.path, h.trail.congr (fun _ _ => rfl) fun x hx => Function.update_of_ne ?_ .., h.head_key, h.live⟩
  · intro he
    have hp := h.placed u
    simp only [Placed, hc] at hp
    exact hu (h.owns_inj u t (s.thread t).node ⟨by rw [hc]; rfl, by rw [hp.2.2.1]; rfl, he.symm⟩ hown)
  · intro he
    rw [he, hzero] at hx
    exact Nat.lt_irrefl _ hx

/-- The node of another thread that is about to link it is not one that this thread writes to. -/
theorem Inv.node_ne (h : Inv s p S age now) {u x : Nat} (hpc : (s.thread u).pc = .linkPrev)
    (hx : 0 < age x) : (s.thread u).node ≠ x := by
  have hp := h.placed u
  simp only [Placed, hpc] at hp
  have hzero := (h.owns u _ ⟨by rw [hpc]; rfl, by rw [hp.2.2.1]; rfl, rfl⟩).2
  intro he
  rw [he] at hzero
  omega

/-- `prev->next = node`: the node is on the path, and its key in the set. -/
theorem inv_linkPrev (h : Inv s p S age now) (hpc : (s.thread t).pc = .linkPrev) :
    ∃ p' age', Inv (s.write t (s.thread t).prev (s.thread t).node
      { s.thread t with ret := true, pc := .unlockPrev }) p' (insert (s.thread t).op.key S) age' now := by
  have hplaced := h.placed t
  simp only [Placed, hpc] at hplaced
  obtain ⟨hb, hkey, hop, hnext⟩ := hplaced
  have hf := hb.follows
  have hneeds : (s.thread t).op.needsNode = true := by rw [hop]; rfl
  have hown : (s.thread t).Owns (s.thread t).node := ⟨by rw [hpc]; rfl, hneeds, rfl⟩
  obtain ⟨hlive, hzero⟩ := h.owns t _ hown
  have hnkey := (h.ready t).node_key (by rw [hpc]; rfl) hneeds
  have hprev : (s.thread t).Holds (s.thread t).prev := twoLocks_prev (by rw [hpc]; rfl)
  have hmem : ∀ x ∈ p, x ≠ (s.thread t).node := by
    rintro x hx rfl
    have := h.trail.pos_of_mem hx
    omega
  have hlast : TAIL ∈ p := List.mem_of_getLast? h.path.last
  obtain ⟨p', hpath, hmem', hfol⟩ := h.path.insert hf (hmem _ h.path.head_mem).symm
    (hmem _ hlast).symm (by rw [hnkey]; exact hb.below)
    (by rw [hnkey]; exact lt_of_le_of_ne hb.above (Ne.symm hkey))
  rw [hnkey] at hpath
  have hage : ∀ x, 0 < age x → Function.update age (s.thread t).node now x = age x := by
    intro x hx
    refine Function.update_of_ne ?_ ..
    rintro rfl
    omega
  have hnone : ∀ x, ¬({ s.thread t with ret := true, pc := .unlockPrev } : Thread).Owns x := by
    rintro x ⟨hc, -⟩
    cases hc
  have hposa : ∀ x, 0 < age x → 0 < Function.update age (s.thread t).node now x := by
    intro x hx
    rw [hage x hx]
    exact hx
  obtain ⟨hpp, hpcur⟩ := h.pos_of_follows hf
  refine ⟨p', Function.update age (s.thread t).node now, h.toThreads.move rfl
    ⟨h.path.ne hf, hposa _ hpp, hposa _ hpcur⟩
    (fun u hu => (h.placed u).mono ⟨fun _ => h.trail.pos_of_mem, fun _ _ => rfl, hposa,
      fun x y hx hpos hxy => ?_, fun x y hx hxy => ?_, fun x _ hm => (hmem' x).mpr (Or.inr hm)⟩
      fun hc => Function.update_of_ne (h.node_ne hc hpp) ..)
    ((h.ready t).of (by rw [hpc]; decide) rfl rfl (fun hc => by cases hc)) (fun u _ => h.ready u)
    (h.owner.keep (twoLocks_congr (by rw [hpc]; rfl) (by rw [hpc]; rfl)))
    (fun x hx => absurd hx (hnone x)) (fun u hu x hx => ?_) (fun x u hx _ => absurd hx (hnone x)),
    hpath, h.trail.insert hf hzero hnext hmem' hfol, h.head_key, fun x hx => ?_⟩
  · -- ages only change for the new node
    rw [hage x hpos]
    rcases hxy with hxy | hxy
    · exact Or.inl hxy
    · rw [hage y (by omega)]
      exact Or.inr hxy
  · exact (hfol x y).mpr (Or.inr (Or.inr ⟨hxy, h.toThreads.held_ne hu hx hprev⟩))
  · have hne : x ≠ (s.thread t).node := by
      rintro rfl
      exact hu (h.owns_inj u t _ hx hown)
    rw [Function.update_of_ne hne]
    exact h.owns u x hx
  · by_cases hxn : x = (s.thread t).node
    · rw [hxn]
      exact hlive
    · rw [Function.update_of_ne hxn] at hx
      exact h.live x hx

/-- `prev->next = curr->next`: `curr` is off the path, and its key not in the set. -/
theorem inv_unlink (h : Inv s p S age now) (hpc : (s.thread t).pc = .unlink) :
    ∃ p' age', Inv (s.write t (s.thread t).prev (s.thread t).tmp
      { s.thread t with ret := true, pc := .unlockPrev }) p' (S.erase (s.thread t).op.key)
      age' (now + 1) := by
  have hplaced := h.placed t
  simp only [Placed, hpc] at hplaced
  obtain ⟨hb, hkey, hop, hft⟩ := hplaced
  have hf := hb.follows
  have hprev : (s.thread t).Holds (s.thread t).prev := twoLocks_prev (by rw [hpc]; rfl)
  have hcurr : (s.thread t).Holds (s.thread t).curr := twoLocks_curr (by rw [hpc]; rfl)
  obtain ⟨p', hpath, hmem', hfol⟩ := h.path.erase hf hft
  rw [hkey] at hpath
  have hage : ∀ x, 0 < age x → 0 < Trail.aged age now (s.thread t).curr x :=
    fun x hx => Nat.lt_of_lt_of_le hx (Trail.le_aged ..)
  have hzero : ∀ x, age x = 0 → Trail.aged age now (s.thread t).curr x = 0 := by
    intro x hx
    have := h.trail.pos
    unfold Trail.aged
    rw [if_neg (by omega)]
    exact hx
  have hnone : ∀ x, ¬({ s.thread t with ret := true, pc := .unlockPrev } : Thread).Owns x := by
    rintro x ⟨hc, -⟩
    cases hc
  obtain ⟨hpp, hpcur⟩ := h.pos_of_follows hf
  have hne : ∀ u, u ≠ t → ∀ x, (s.thread u).Holds x → x ≠ (s.thread t).prev ∧ x ≠ (s.thread t).curr :=
    fun u hu x hx => ⟨h.toThreads.held_ne hu hx hprev, h.toThreads.held_ne hu hx hcurr⟩
  refine ⟨p', Trail.aged age now (s.thread t).curr, h.toThreads.move rfl
    ⟨h.path.ne hf, hage _ hpp, hage _ hpcur⟩
    (fun u hu => (h.placed u).mono ⟨fun _ => h.trail.pos_of_mem, fun _ _ => rfl, hage,
      fun x y hx hpos hxy => ?_, fun x y hx hxy => (hfol x y).mpr (Or.inr ⟨hxy, hne u hu x hx⟩),
      fun x hx hm => (hmem' x).mpr ⟨hm, (hne u hu x hx).2⟩⟩
      fun hc => Function.update_of_ne (h.node_ne hc hpp) ..)
    ((h.ready t).of (by rw [hpc]; decide) rfl rfl (fun hc => by cases hc)) (fun u _ => h.ready u)
    (h.owner.keep (twoLocks_congr (by rw [hpc]; rfl) (by rw [hpc]; rfl)))
    (fun x hx => absurd hx (hnone x))
    (fun u _ x hx => ⟨(h.owns u x hx).1, hzero x (h.owns u x hx).2⟩)
    (fun x u hx _ => absurd hx (hnone x)),
    hpath, h.trail.erase h.path.asc hf hft hmem' hfol, h.head_key, fun x hx => h.live x ?_⟩
  · -- a node that another thread holds stays on the path, or was taken out before
    by_cases hnow : age x = now
    · exact Or.inl (if_pos ⟨hnow, (hne u hu x hx).2⟩)
    · have hlt := hxy.resolve_left hnow
      have hsame : Trail.aged age now (s.thread t).curr x = age x := if_neg fun hc => hnow hc.1
      rw [hsame]
      exact Or.inr (Nat.lt_of_lt_of_le hlt (Trail.le_aged ..))
  · by_contra hc
    rw [hzero x (by omega)] at hx
    omega

end

end MulticorePrac.ListSet.Opt
