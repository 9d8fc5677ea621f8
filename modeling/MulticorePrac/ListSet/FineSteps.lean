import MulticorePrac.ListSet.FineInvariant

/-!
# Lab11: the steps of the fine-grained list

Each step of an operation keeps the invariant.  Only two of them change the set: the
write of `node->next`, after which the new node is on the path, and the write of
`prev->next` in `list_remove`.
-/

namespace MulticorePrac.ListSet.Fine

attribute [local simp] Pc.hasPrev Pc.hasCurr

section
variable {s : St} {p : List Nat} {S : Finset Int} {t : Nat}

/-- A step before the operation takes effect: the operation and its node stay. -/
theorem Inv.walk (h : Inv s p S) {l : Thread} {o : Nat → Option Nat}
    (hpc : (s.thread t).pc ≠ .idle ∧ (s.thread t).pc ≠ .linkNode)
    (hop : l.op = (s.thread t).op ∧ l.node = (s.thread t).node)
    (hn : l.pc.hasNode = true → (s.thread t).pc.hasNode = true) (ha : l.pc.after = false)
    (hplaced : Placed s.key s.next p l)
    (ho : Owned Thread.Holds o (Function.update s.thread t l)) :
    Inv { s.setThread t l with owner := o } p S := by
  refine h.quiet hpc.2 hplaced ((h.ready t).of hpc.1 hop.1 hop.2 hn) ?_ ho
  rintro x (⟨h1, h2, rfl⟩ | ⟨h1, -⟩)
  · rw [hop.1] at h2
    exact Or.inl ⟨hn h1, h2, hop.2⟩
  · rw [ha] at h1
    cases h1

/-- A step that only goes on, with the same locks. -/
theorem Inv.goto (h : Inv s p S) {a b : Pc} (hpc : (s.thread t).pc = a)
    (hab : (a ≠ .idle ∧ a ≠ .linkNode) ∧ b.hasPrev = a.hasPrev ∧ b.hasCurr = a.hasCurr ∧
      (b.hasNode = true → a.hasNode = true) ∧ b.after = false)
    (hplaced : Placed s.key s.next p { s.thread t with pc := b }) :
    Inv (s.setThread t { s.thread t with pc := b }) p S := by
  subst hpc
  exact h.walk hab.1 ⟨rfl, rfl⟩ hab.2.2.2.1 hab.2.2.2.2 hplaced
    (h.owner.keep (twoLocks_congr hab.2.1 hab.2.2.1))

/-! ## Going along the path -/

theorem inv_lockHead (h : Inv s p S) (hpc : (s.thread t).pc = .lockHead)
    (hfree : s.owner HEAD = none) :
    Inv { s.setThread t { s.thread t with prev := HEAD, pc := .readHead } with
      owner := Function.update s.owner HEAD (some t) } p S :=
  h.walk (by rw [hpc]; decide) ⟨rfl, rfl⟩ (fun _ => by rw [hpc]; rfl) rfl rfl
    (h.owner.lock hfree fun y => by simp [Thread.Holds, TwoLocks, hpc, Pc.hasPrev, Pc.hasCurr])

theorem inv_readHead (h : Inv s p S) (hpc : (s.thread t).pc = .readHead) :
    Inv (s.setThread t { s.thread t with curr := s.next HEAD, pc := .lockCurr }) p S := by
  have hplaced := h.placed t
  simp only [Placed, hpc] at hplaced
  have hrange := (h.ready t).range (by rw [hpc]; decide)
  unfold Op.InRange at hrange
  have hrank : rank s.key HEAD < INT_MAX := by rw [rank_head]; decide
  obtain ⟨b, hb⟩ := h.path.follows h.path.head_mem hrank
  have hholds : (s.thread t).Holds HEAD := by
    rw [← hplaced]
    exact twoLocks_prev (by rw [hpc]; rfl)
  have hnext := h.next_of_holds hholds (by rw [hpc]; decide) hb
  refine h.walk (by rw [hpc]; decide) ⟨rfl, rfl⟩ (fun _ => by rw [hpc]; rfl) rfl ?_
    (h.owner.keep fun y => by simp [Thread.Holds, TwoLocks, hpc, Pc.hasPrev, Pc.hasCurr])
  show Follows p (s.thread t).prev (s.next HEAD) ∧ rank s.key (s.thread t).prev < (s.thread t).op.key
  rw [hplaced, hnext, rank_head]
  exact ⟨hb, by omega⟩

theorem inv_lockCurr (h : Inv s p S) (hpc : (s.thread t).pc = .lockCurr)
    (hfree : s.owner (s.thread t).curr = none) :
    Inv { s.setThread t { s.thread t with pc := .test } with
      owner := Function.update s.owner (s.thread t).curr (some t) } p S := by
  have hplaced := h.placed t
  simp only [Placed, hpc] at hplaced
  exact h.walk (by rw [hpc]; decide) ⟨rfl, rfl⟩ (fun _ => by rw [hpc]; rfl) rfl hplaced
    (h.owner.lock hfree fun y => by simp [Thread.Holds, TwoLocks, hpc, Pc.hasPrev, Pc.hasCurr])

theorem inv_test (h : Inv s p S) (hpc : (s.thread t).pc = .test) :
    Inv (s.setThread t { s.thread t with
      pc := if s.key (s.thread t).curr < (s.thread t).op.key then .unlockStep else .decide }) p S := by
  have hplaced := h.placed t
  simp only [Placed, hpc] at hplaced
  split
  · rename_i hlt
    exact h.goto hpc (by decide) ⟨hplaced.1, hlt⟩
  · rename_i hge
    exact h.goto hpc (by decide) ⟨hplaced.1, hplaced.2, Int.not_lt.mp hge⟩

theorem inv_unlockStep (h : Inv s p S) (hpc : (s.thread t).pc = .unlockStep) :
    Inv (s.unlock t (s.thread t).prev { s.thread t with pc := .readNext }) p S := by
  have hplaced := h.placed t
  simp only [Placed, hpc] at hplaced
  refine h.walk (by rw [hpc]; decide) ⟨rfl, rfl⟩ (fun _ => by rw [hpc]; rfl) rfl
    ⟨hplaced.1.right_mem, ?_⟩ (h.owner.unlock (twoLocks_prev (by rw [hpc]; rfl))
      (twoLocks_unlockPrev (h.path.ne hplaced.1) (by rw [hpc]; rfl) (by rw [hpc]; rfl) rfl rfl))
  show rank s.key (s.thread t).curr < (s.thread t).op.key
  rw [h.path.rank_right hplaced.1]
  exact hplaced.2

theorem inv_readNext (h : Inv s p S) (hpc : (s.thread t).pc = .readNext) :
    Inv (s.setThread t { s.thread t with
      prev := (s.thread t).curr, curr := s.next (s.thread t).curr, pc := .lockCurr }) p S := by
  have hplaced := h.placed t
  simp only [Placed, hpc] at hplaced
  have hrange := (h.ready t).range (by rw [hpc]; decide)
  unfold Op.InRange at hrange
  obtain ⟨b, hb⟩ := h.path.follows hplaced.1 (by omega)
  have hnext := h.next_of_holds (twoLocks_curr (by rw [hpc]; rfl)) (by rw [hpc]; decide) hb
  refine h.walk (by rw [hpc]; decide) ⟨rfl, rfl⟩ (fun _ => by rw [hpc]; rfl) rfl ⟨?_, hplaced.2⟩
    (h.owner.keep fun y => by simp [Thread.Holds, TwoLocks, hpc, Pc.hasPrev, Pc.hasCurr])
  show Follows p (s.thread t).curr (s.next (s.thread t).curr)
  rw [hnext]
  exact hb

/-! ## The decision -/

/-- A decision that ends the operation without a change of the list. -/
theorem Inv.giveUp (h : Inv s p S) (hpc : (s.thread t).pc = .decide) {r : Bool}
    (hr : ({ s.thread t with ret := r, pc := .unlockPrev } : Thread).frees = false) :
    Inv (s.setThread t { s.thread t with ret := r, pc := .unlockPrev }) p S := by
  have hplaced := h.placed t
  simp only [Placed, hpc] at hplaced
  refine h.quiet (by rw [hpc]; decide)
    ⟨hplaced.1.left_mem, h.path.ne hplaced.1, Or.inl hplaced.1.right_mem⟩
    ((h.ready t).of (by rw [hpc]; decide) rfl rfl (fun hc => by cases hc)) ?_
    (h.owner.keep (twoLocks_congr (by rw [hpc]; rfl) (by rw [hpc]; rfl)))
  rintro x (⟨hc, -⟩ | ⟨-, hc, -⟩)
  · cases hc
  · rw [hr] at hc
    cases hc

theorem decideStep_eq (l : Thread) : decideStep s l = (decision l.op (s.key l.curr)).elim
    { l with pc := if l.op.needsNode then .linkPrev else .readUnlink }
    fun r => { l with ret := r, pc := .unlockPrev } := by
  unfold decideStep decision
  cases l.op with
  | add k | remove k => dsimp only; split <;> rfl
  | contains k => rfl

/-- A `list_remove` that gives up has nothing to free. -/
theorem frees_of_decision {l : Thread} {r : Bool} (hd : decision l.op (s.key l.curr) = some r) :
    ({ l with ret := r, pc := .unlockPrev } : Thread).frees = false := by
  unfold Thread.frees
  dsimp only
  split
  · rename_i k hop
    rw [hop] at hd
    exact decision_remove hd
  · rfl

/-- The decision is right: an operation that ends here has the result that it has on the set, and
leaves the set as it is. -/
theorem inv_decide (h : Inv s p S) (hpc : (s.thread t).pc = .decide) :
    Inv (s.setThread t (decideStep s (s.thread t))) p S ∧
      (decideStep s (s.thread t)).calls = (s.thread t).calls ∧
      ((decideStep s (s.thread t)).phase = .running (s.thread t).op ∨
        ((decideStep s (s.thread t)).phase =
            .decided (s.thread t).op (setObject.apply S (s.thread t).op).2 ∧
          (setObject.apply S (s.thread t).op).1 = S)) := by
  have hplaced := h.placed t
  simp only [Placed, hpc] at hplaced
  obtain ⟨hf, hlt, hle⟩ := hplaced
  have hrange := (h.ready t).range (by rw [hpc]; decide)
  cases hd : decision (s.thread t).op (s.key (s.thread t).curr) with
  | some r =>
    rw [decideStep_eq, hd, decision_some (h.path.mem_iff hf hlt hle hrange.1 hrange.2) hd]
    exact ⟨h.giveUp hpc (frees_of_decision hd), rfl, Or.inr ⟨rfl, rfl⟩⟩
  | none =>
    rw [decideStep_eq, hd, Option.elim_none]
    rcases decision_none hd with ⟨hop, hk⟩ | ⟨hop, hk⟩
    · rw [if_pos (by rw [hop]; rfl)]
      exact ⟨h.goto hpc (by decide) ⟨hf, hlt, lt_of_le_of_ne hle (Ne.symm hk), hop⟩, rfl, Or.inl rfl⟩
    · rw [if_neg (by rw [hop]; exact Bool.false_ne_true)]
      exact ⟨h.goto hpc (by decide) ⟨hf, hlt, hk, hop⟩, rfl, Or.inl rfl⟩

/-! ## Taking a node out, and the unlocks -/

theorem inv_readUnlink (h : Inv s p S) (hpc : (s.thread t).pc = .readUnlink) :
    Inv (s.setThread t { s.thread t with tmp := s.next (s.thread t).curr, pc := .unlink }) p S := by
  have hplaced := h.placed t
  simp only [Placed, hpc] at hplaced
  obtain ⟨hf, hlt, hk, hop⟩ := hplaced
  have hrange := (h.ready t).range (by rw [hpc]; decide)
  unfold Op.InRange at hrange
  obtain ⟨b, hb⟩ := h.path.follows hf.right_mem (by rw [h.path.rank_right hf]; omega)
  have hnext := h.next_of_holds (twoLocks_curr (by rw [hpc]; rfl)) (by rw [hpc]; decide) hb
  refine h.walk (by rw [hpc]; decide) ⟨rfl, rfl⟩ (fun hc => by cases hc) rfl
    ⟨hf, hlt, hk, hop, ?_⟩ (h.owner.keep (twoLocks_congr (by rw [hpc]; rfl) (by rw [hpc]; rfl)))
  show Follows p (s.thread t).curr (s.next (s.thread t).curr)
  rw [hnext]
  exact hb

/-- A step after the operation has taken effect: a node that was taken out still belongs to the
thread, until it is freed. -/
theorem Inv.leave (h : Inv s p S) {b : Pc} {o : Nat → Option Nat}
    (ha : (s.thread t).pc.after = true) (hb : b.hasNode = false)
    (hplaced : Placed s.key s.next p { s.thread t with pc := b })
    (ho : Owned Thread.Holds o (Function.update s.thread t { s.thread t with pc := b })) :
    Inv { s.setThread t { s.thread t with pc := b } with owner := o } p S := by
  have hpc : (s.thread t).pc ≠ .idle ∧ (s.thread t).pc ≠ .linkNode := by
    constructor <;> intro hc <;> rw [hc] at ha <;> cases ha
  have hnode : b.hasNode ≠ true := by rw [hb]; decide
  refine h.quiet hpc.2 hplaced ((h.ready t).of hpc.1 rfl rfl fun hc => absurd hc hnode) ?_ ho
  rintro x (⟨hc, -⟩ | ⟨-, hc, rfl⟩)
  · exact absurd hc hnode
  · exact Or.inr ⟨ha, hc, rfl⟩

theorem inv_unlockPrev (h : Inv s p S) (hpc : (s.thread t).pc = .unlockPrev) :
    Inv (s.unlock t (s.thread t).prev { s.thread t with pc := .unlockCurr }) p S := by
  have hplaced := h.placed t
  simp only [Placed, hpc] at hplaced
  exact h.leave (by rw [hpc]; rfl) rfl hplaced.2.2 (h.owner.unlock (twoLocks_prev (by rw [hpc]; rfl))
    (twoLocks_unlockPrev hplaced.2.1 (by rw [hpc]; rfl) (by rw [hpc]; rfl) rfl rfl))

theorem inv_unlockCurr (h : Inv s p S) (hpc : (s.thread t).pc = .unlockCurr) :
    Inv (s.unlock t (s.thread t).curr { s.thread t with
      pc := if (s.thread t).frees then .free else .ret }) p S := by
  have hcurr : (s.thread t).Holds (s.thread t).curr := twoLocks_curr (by rw [hpc]; rfl)
  split
  · rename_i hfr
    exact h.leave (by rw [hpc]; rfl) rfl hfr (h.owner.unlock hcurr
      (twoLocks_unlockCurr (by rw [hpc]; rfl) (by rw [hpc]; rfl) rfl rfl))
  · exact h.leave (by rw [hpc]; rfl) rfl trivial (h.owner.unlock hcurr
      (twoLocks_unlockCurr (by rw [hpc]; rfl) (by rw [hpc]; rfl) rfl rfl))

/-! ## Calls and returns -/

/-- A step of a thread that has no locks, and nothing of its own after it. -/
theorem Inv.outside (h : Inv s p S) {l : Thread} {hist : List (Event Op Bool)} {a : Pc}
    (hpc : (s.thread t).pc = a) (ha : a.hasPrev = false ∧ a.hasCurr = false ∧ a ≠ .linkNode)
    (hl : l.pc.hasPrev = false ∧ l.pc.hasCurr = false) (hplaced : Placed s.key s.next p l)
    (hready : Ready s.key l) (hnone : ∀ x, ¬l.Owns x) :
    Inv { s.setThread t l with hist := hist } p S := by
  subst hpc
  exact ⟨h.toThreads.outside (not_twoLocks ha.1 ha.2.1) (not_twoLocks hl.1 hl.2) hplaced hready hnone,
    h.path, h.live, fun x y hf => links_other (h.links x y hf) fun hc => absurd hc ha.2.2⟩

theorem inv_ret (h : Inv s p S) (hpc : (s.thread t).pc = .ret) :
    Inv { s.setThread t { s.thread t with calls := (s.thread t).calls + 1, pc := .idle } with
      hist := s.hist ++ [.ret (t, (s.thread t).calls) (s.thread t).ret] } p S := by
  refine h.outside hpc (by decide) ⟨rfl, rfl⟩ trivial (.of_idle rfl rfl) ?_
  rintro x (⟨hc, -⟩ | ⟨hc, -⟩) <;> cases hc

theorem inv_call (h : Inv s p S) (hpc : (s.thread t).pc = .idle) {op : Op} (hop : op.InRange) :
    Inv { s.setThread t { s.thread t with
        op := op
        pc := if op.needsNode then .malloc else .lockHead } with
      hist := s.hist ++ [.call (t, (s.thread t).calls) op] } p S := by
  by_cases hn : op.needsNode = true
  · simp only [if_pos hn]
    refine h.outside hpc (by decide) ⟨rfl, rfl⟩ trivial ⟨fun _ => hop, fun hc => by cases hc⟩ ?_
    rintro x (⟨hc, -⟩ | ⟨hc, -⟩) <;> cases hc
  · simp only [if_neg hn]
    refine h.outside hpc (by decide) ⟨rfl, rfl⟩ trivial ⟨fun _ => hop, fun _ hc => absurd hc hn⟩ ?_
    rintro x (⟨-, hc, -⟩ | ⟨hc, -⟩)
    · exact absurd hc hn
    · cases hc

/-! ## Steps that change nodes -/

/-- The nodes that other threads hold are not those of this one. -/
theorem Inv.held_ne (h : Inv s p S) {u x y : Nat} (hu : u ≠ t) (hx : (s.thread u).Holds x)
    (hy : (s.thread t).Holds y ∨ (s.thread t).Owns y) : x ≠ y := by
  rcases hy with hy | hy
  · exact h.toThreads.held_ne hu hx hy
  · rintro rfl
    rcases h.mem_of_holds hx with hm | ho
    · exact (h.owns t x hy).2 hm
    · exact hu (h.owns_inj u t x ho hy)

theorem inv_malloc (h : Inv s p S) (hpc : (s.thread t).pc = .malloc) {x junk : Nat}
    (hx : s.live x = false) :
    Inv { s.setThread t { s.thread t with node := x, pc := .lockHead } with
      key := Function.update s.key x (s.thread t).op.key
      next := Function.update s.next x junk
      owner := Function.update s.owner x none
      live := Function.update s.live x true } p S := by
  have hne : ∀ y, s.live y = true → y ≠ x := fun _ => State.ne_of_live hx
  have hpath : ∀ y ∈ p, y ≠ x := fun y hy => hne y (h.live y hy)
  have hkey : ∀ y ∈ p, Function.update s.key x (s.thread t).op.key y = s.key y :=
    fun y hy => Function.update_of_ne (hpath y hy) ..
  refine ⟨h.toThreads.malloc hx (fun u y hy => h.live_of_holds hy) trivial (fun u _ => ?_)
    ⟨fun _ => (h.ready t).range (by rw [hpc]; decide), fun _ _ => Function.update_self ..⟩
    (fun u _ => (h.ready u).congr fun h1 h2 => ?_)
    (twoLocks_congr (by rw [hpc]; rfl) (by rw [hpc]; rfl)) (fun hm => hpath x hm rfl) ?_,
    h.path.congr hkey, fun y hy => ?_, fun y z hf => ?_⟩
  · exact (h.placed u).mono hkey (fun _ _ _ hf => hf) (fun _ _ hm => hm)
      fun y hy => Function.update_of_ne (hne y (h.live_of_holds hy)) ..
  · exact Function.update_of_ne (hne _ (h.owns u _ (Or.inl ⟨h1, h2, rfl⟩)).1) ..
  · rintro y (⟨-, -, hy⟩ | ⟨hc, -⟩)
    · exact hy
    · cases hc
  · show Function.update s.live x true y = true
    rw [Function.update_of_ne (hpath y hy)]
    exact h.live y hy
  · show Function.update s.next x junk y = z ∨ _
    rw [Function.update_of_ne (hpath y hf.left_mem)]
    exact links_other (h.links y z hf) fun hc => by rw [hpc] at hc; cases hc

theorem inv_linkPrev (h : Inv s p S) (hpc : (s.thread t).pc = .linkPrev) :
    Inv (s.write t (s.thread t).prev (s.thread t).node { s.thread t with pc := .linkNode }) p S := by
  have hplaced := h.placed t
  simp only [Placed, hpc] at hplaced
  obtain ⟨hf, hlt, hgt, hop⟩ := hplaced
  have hhold : (s.thread t).Holds (s.thread t).prev := twoLocks_prev (by rw [hpc]; rfl)
  have hown : ∀ x, ({ s.thread t with pc := .linkNode } : Thread).Owns x → (s.thread t).Owns x := by
    rintro x (⟨-, h2, rfl⟩ | ⟨hc, -⟩)
    · exact Or.inl ⟨by rw [hpc]; rfl, h2, rfl⟩
    · cases hc
  refine ⟨h.toThreads.move rfl ⟨hf, hlt, hgt, hop, Function.update_self ..⟩
    (fun u hu => (h.placed u).mono (fun _ _ => rfl) (fun _ _ _ hf => hf) (fun _ _ hm => hm)
      fun y hy => Function.update_of_ne (h.held_ne hu hy (Or.inl hhold)) ..)
    ((h.ready t).of (by rw [hpc]; decide) rfl rfl (fun _ => by rw [hpc]; rfl)) (fun u _ => h.ready u)
    (h.owner.keep (twoLocks_congr (by rw [hpc]; rfl) (by rw [hpc]; rfl)))
    (fun x hx => h.owns t x (hown x hx)) (fun u _ => h.owns u)
    (fun x u hx hu => h.owns_inj u t x hu (hown x hx)), h.path, h.live, fun x y hxy => ?_⟩
  by_cases hx : x = (s.thread t).prev
  · -- the link that is being set
    refine Or.inr ⟨t, ?_⟩
    show (Function.update s.thread t _ t).pc = _ ∧ (Function.update s.thread t _ t).prev = x
    rw [Function.update_self]
    exact ⟨rfl, hx.symm⟩
  · show Function.update s.next _ _ x = y ∨ _
    rw [Function.update_of_ne hx]
    exact links_other (h.links x y hxy) fun hc => by rw [hpc] at hc; cases hc

/-- `node->next = curr`: the node is on the path, and its key in the set. -/
theorem inv_linkNode (h : Inv s p S) (hpc : (s.thread t).pc = .linkNode) :
    ∃ p', Inv (s.write t (s.thread t).node (s.thread t).curr
      { s.thread t with ret := true, pc := .unlockPrev }) p' (insert (s.thread t).op.key S) := by
  have hplaced := h.placed t
  simp only [Placed, hpc] at hplaced
  obtain ⟨hf, hlt, hgt, hop, hnext⟩ := hplaced
  have hneeds : (s.thread t).op.needsNode = true := by rw [hop]; rfl
  have hown : (s.thread t).Owns (s.thread t).node := Or.inl ⟨by rw [hpc]; rfl, hneeds, rfl⟩
  obtain ⟨hlive, hnp⟩ := h.owns t _ hown
  have hkey := (h.ready t).node_key (by rw [hpc]; rfl) hneeds
  have hprev : (s.thread t).Holds (s.thread t).prev := twoLocks_prev (by rw [hpc]; rfl)
  have hmem : ∀ x ∈ p, x ≠ (s.thread t).node := fun x hx he => hnp (he ▸ hx)
  have hlast : TAIL ∈ p := List.mem_of_getLast? h.path.last
  obtain ⟨p', hpath, hmem', hf'⟩ := h.path.insert hf (hmem _ h.path.head_mem).symm
    (hmem _ hlast).symm (by rw [hkey]; exact hlt) (by rw [hkey]; exact hgt)
  rw [hkey] at hpath
  have hfrees : ({ s.thread t with ret := true, pc := .unlockPrev } : Thread).frees = false := by
    unfold Thread.frees
    rw [hop]
  have hnone : ∀ x, ¬({ s.thread t with ret := true, pc := .unlockPrev } : Thread).Owns x := by
    rintro x (⟨hc, -⟩ | ⟨-, hc, -⟩)
    · cases hc
    · rw [hfrees] at hc
      cases hc
  refine ⟨p', h.toThreads.move rfl
    ⟨(hmem' _).mpr (Or.inr hf.left_mem), h.path.ne hf, Or.inl ((hmem' _).mpr (Or.inr hf.right_mem))⟩
    (fun u hu => (h.placed u).mono (fun _ _ => rfl) (fun x y hx hxy => ?_)
      (fun x _ hx => (hmem' x).mpr (Or.inr hx)) fun x hx =>
        Function.update_of_ne (h.held_ne hu hx (Or.inr hown)) ..)
    ((h.ready t).of (by rw [hpc]; decide) rfl rfl (fun hc => by cases hc)) (fun u _ => h.ready u)
    (h.owner.keep (twoLocks_congr (by rw [hpc]; rfl) (by rw [hpc]; rfl)))
    (fun x hx => absurd hx (hnone x)) (fun u hu x hx => ?_) (fun x u hx _ => absurd hx (hnone x)),
    hpath, fun x hx => ?_, fun x y hxy => ?_⟩
  · exact (hf' x y).mpr (Or.inr (Or.inr ⟨hxy, h.held_ne hu hx (Or.inl hprev)⟩))
  · obtain ⟨h1, h2⟩ := h.owns u x hx
    refine ⟨h1, fun hm => ?_⟩
    rcases (hmem' x).mp hm with rfl | hm
    · exact hu (h.owns_inj u t _ hx hown)
    · exact h2 hm
  · rcases (hmem' x).mp hx with rfl | hx
    · exact hlive
    · exact h.live x hx
  · show Function.update s.next (s.thread t).node (s.thread t).curr x = y ∨ _
    rcases (hf' x y).mp hxy with ⟨rfl, rfl⟩ | ⟨rfl, rfl⟩ | ⟨hxy, hx⟩
    · rw [Function.update_of_ne (hmem _ hf.left_mem)]
      exact Or.inl hnext
    · exact Or.inl (Function.update_self ..)
    · rw [Function.update_of_ne (hmem x hxy.left_mem)]
      exact links_other (h.links x y hxy) fun _ => Ne.symm hx

/-- `prev->next = curr->next`: `curr` is off the path, and its key not in the set. -/
theorem inv_unlink (h : Inv s p S) (hpc : (s.thread t).pc = .unlink) :
    ∃ p', Inv (s.write t (s.thread t).prev (s.thread t).tmp
      { s.thread t with ret := true, pc := .unlockPrev }) p' (S.erase (s.thread t).op.key) := by
  have hplaced := h.placed t
  simp only [Placed, hpc] at hplaced
  obtain ⟨hf, hlt, hkey, hop, hft⟩ := hplaced
  have hprev : (s.thread t).Holds (s.thread t).prev := twoLocks_prev (by rw [hpc]; rfl)
  have hcurr : (s.thread t).Holds (s.thread t).curr := twoLocks_curr (by rw [hpc]; rfl)
  obtain ⟨p', hpath, hmem', hf'⟩ := h.path.erase hf hft
  rw [hkey] at hpath
  have hfrees : ({ s.thread t with ret := true, pc := .unlockPrev } : Thread).frees = true := by
    unfold Thread.frees
    rw [hop]
  have hown : ∀ x, ({ s.thread t with ret := true, pc := .unlockPrev } : Thread).Owns x →
      x = (s.thread t).curr := by
    rintro x (⟨hc, -⟩ | ⟨-, -, hx⟩)
    · cases hc
    · exact hx
  refine ⟨p', h.toThreads.move rfl
    ⟨(hmem' _).mpr ⟨hf.left_mem, h.path.ne hf⟩, h.path.ne hf, Or.inr hfrees⟩
    (fun u hu => (h.placed u).mono (fun _ _ => rfl) (fun x y hx hxy => ?_) (fun x hx hm => ?_)
      fun x hx => Function.update_of_ne (h.held_ne hu hx (Or.inl hprev)) ..)
    ((h.ready t).of (by rw [hpc]; decide) rfl rfl (fun hc => by cases hc)) (fun u _ => h.ready u)
    (h.owner.keep (twoLocks_congr (by rw [hpc]; rfl) (by rw [hpc]; rfl)))
    (fun x hx => ?_) (fun u _ x hx => ?_) (fun x u hx hu => ?_),
    hpath, fun x hx => h.live x ((hmem' x).mp hx).1, fun x y hxy => ?_⟩
  · exact (hf' x y).mpr (Or.inr ⟨hxy, h.held_ne hu hx (Or.inl hprev), h.held_ne hu hx (Or.inl hcurr)⟩)
  · exact (hmem' x).mpr ⟨hm, h.held_ne hu hx (Or.inl hcurr)⟩
  · rw [hown x hx]
    exact ⟨h.live _ hf.right_mem, fun hm => ((hmem' _).mp hm).2 rfl⟩
  · obtain ⟨h1, h2⟩ := h.owns u x hx
    exact ⟨h1, fun hm => h2 ((hmem' x).mp hm).1⟩
  · -- the node was on the path, so no one owned it
    rw [hown x hx] at hu
    exact absurd hf.right_mem (h.owns u _ hu).2
  · show Function.update s.next (s.thread t).prev (s.thread t).tmp x = y ∨ _
    rcases (hf' x y).mp hxy with ⟨rfl, rfl⟩ | ⟨hxy, hx, -⟩
    · exact Or.inl (Function.update_self ..)
    · rw [Function.update_of_ne hx]
      exact links_other (h.links x y hxy) fun hc => by rw [hpc] at hc; cases hc

theorem inv_free (h : Inv s p S) (hpc : (s.thread t).pc = .free) :
    Inv { s.setThread t { s.thread t with pc := .ret } with
      live := Function.update s.live (s.thread t).curr false } p S := by
  have hplaced := h.placed t
  simp only [Placed, hpc] at hplaced
  have hown : (s.thread t).Owns (s.thread t).curr := Or.inr ⟨by rw [hpc]; rfl, hplaced, rfl⟩
  have hnp := (h.owns t _ hown).2
  have hnone : ∀ x, ¬({ s.thread t with pc := .ret } : Thread).Owns x := by
    rintro x (⟨hc, -⟩ | ⟨hc, -⟩) <;> cases hc
  have hlive : ∀ x, x ≠ (s.thread t).curr →
      Function.update s.live (s.thread t).curr false x = s.live x :=
    fun x hx => Function.update_of_ne hx ..
  refine ⟨h.toThreads.move rfl trivial (fun u _ => h.placed u)
    ((h.ready t).of (by rw [hpc]; decide) rfl rfl (fun hc => by cases hc)) (fun u _ => h.ready u)
    (h.owner.keep (twoLocks_congr (by rw [hpc]; rfl) (by rw [hpc]; rfl)))
    (fun x hx => absurd hx (hnone x)) (fun u hu x hx => ?_) (fun x u hx _ => absurd hx (hnone x)),
    h.path, fun x hx => ?_, fun x y hxy => links_other (h.links x y hxy) fun hc => ?_⟩
  · have hne : x ≠ (s.thread t).curr := fun he => hu (h.owns_inj u t x hx (he ▸ hown))
    show Function.update s.live _ false x = true ∧ _
    rw [hlive x hne]
    exact h.owns u x hx
  · have hne : x ≠ (s.thread t).curr := fun he => hnp (he ▸ hx)
    show Function.update s.live _ false x = true
    rw [hlive x hne]
    exact h.live x hx
  · rw [hpc] at hc
    cases hc

end

end MulticorePrac.ListSet.Fine
