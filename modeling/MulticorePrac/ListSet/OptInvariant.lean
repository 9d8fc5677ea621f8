import MulticorePrac.Lib.Trail
import MulticorePrac.ListSet.Locking
import MulticorePrac.ListSet.OptModel

/-!
# Lab11: why the validation of the optimistic list is sound

A thread that goes along the list without locks may stand on nodes that were taken out.
These still lead forward: to nodes of the path, or to nodes that were taken out later
(`Trail`).  While `list_validate` runs, `prev` is locked, so nobody takes it out.  If `prev` is
not on the path, then `it` is on the path or was taken out after `prev`, and this stays so
along the loop (`Checked`); so `it == prev` shows that `prev` is on the path.
-/

namespace MulticorePrac.ListSet.Opt

/-! ## What a thread has -/

/-- The lock of `prev` is held. -/
def Pc.hasPrev : Pc → Bool
  | .lockCurr | .valTest | .valStep | .valNext | .failPrev | .decide | .linkNode | .linkPrev
  | .readUnlink | .unlink | .unlockPrev => true
  | _ => false

/-- The lock of `curr` is held. -/
def Pc.hasCurr : Pc → Bool
  | .valTest | .valStep | .valNext | .failPrev | .failCurr | .decide | .linkNode | .linkPrev
  | .readUnlink | .unlink | .unlockPrev | .unlockCurr => true
  | _ => false

/-- The node of `list_add` is allocated and not linked. -/
def Pc.hasNode : Pc → Bool
  | .readHead | .test | .advance | .lockPrev | .lockCurr | .valTest | .valStep | .valNext
  | .failPrev | .failCurr | .decide | .linkNode | .linkPrev => true
  | _ => false

/-- The operation has taken effect. -/
def Pc.after : Pc → Bool
  | .unlockPrev | .unlockCurr | .ret => true
  | _ => false

def Thread.Holds (l : Thread) (x : Nat) : Prop :=
  TwoLocks l.pc.hasPrev l.pc.hasCurr l.prev l.curr x

/-- The node that `list_add` has allocated and not linked. -/
def Thread.Owns (l : Thread) (x : Nat) : Prop :=
  l.pc.hasNode = true ∧ l.op.needsNode = true ∧ x = l.node

def Thread.phase (l : Thread) : Phase Op Bool :=
  match l.pc with
  | .idle => .idle
  | .unlockPrev | .unlockCurr | .ret => .decided l.op l.ret
  | _ => .running l.op

/-! ## The invariant -/

/-- The result of the unlocked loop: nodes that are or were on the path, on either side of the key. -/
structure Near (key : Nat → Int) (age : Nat → Nat) (l : Thread) : Prop where
  prev : 0 < age l.prev
  curr : 0 < age l.curr
  asc : rank key l.prev < rank key l.curr
  below : rank key l.prev < l.op.key
  above : l.op.key ≤ key l.curr

/-- What `list_validate` has seen: `it` comes after `prev` if `prev` was taken out. -/
structure Checked (age : Nat → Nat) (now : Nat) (l : Thread) : Prop where
  it : 0 < age l.it
  later : age l.prev = now ∨ age l.prev < age l.it

/-- After the validation, with both locks held. -/
structure Between (key : Nat → Int) (p : List Nat) (l : Thread) : Prop where
  follows : Follows p l.prev l.curr
  below : rank key l.prev < l.op.key
  above : l.op.key ≤ key l.curr

/-- Where a thread is on the path. -/
def Placed (key : Nat → Int) (next : Nat → Nat) (p : List Nat) (age : Nat → Nat) (now : Nat)
    (l : Thread) : Prop :=
  match l.pc with
  | .test => 0 < age l.prev ∧ 0 < age l.curr ∧ rank key l.prev < rank key l.curr ∧
      rank key l.prev < l.op.key
  | .advance => 0 < age l.curr ∧ key l.curr < l.op.key
  | .lockPrev | .lockCurr => Near key age l
  | .valTest => Near key age l ∧ Checked age now l
  | .valStep => Near key age l ∧ Checked age now l ∧ l.it ≠ TAIL
  | .valNext => Near key age l ∧ l.it = l.prev ∧ l.prev ∈ p
  | .failPrev | .unlockPrev => l.prev ≠ l.curr ∧ 0 < age l.prev ∧ 0 < age l.curr
  | .failCurr | .unlockCurr => 0 < age l.curr
  | .decide => Between key p l
  | .linkNode => Between key p l ∧ key l.curr ≠ l.op.key ∧ l.op = .add l.op.key
  | .linkPrev => Between key p l ∧ key l.curr ≠ l.op.key ∧ l.op = .add l.op.key ∧
      next l.node = l.curr
  | .readUnlink => Between key p l ∧ key l.curr = l.op.key ∧ l.op = .remove l.op.key
  | .unlink => Between key p l ∧ key l.curr = l.op.key ∧ l.op = .remove l.op.key ∧
      Follows p l.curr l.tmp
  | .idle | .malloc | .readHead | .ret => True

/-- The key of the operation and of its node. -/
abbrev Ready (key : Nat → Int) (l : Thread) : Prop :=
  OpReady key (l.pc = .idle) l.op l.pc.hasNode l.node

structure Inv (s : St) (p : List Nat) (S : Finset Int) (age : Nat → Nat) (now : Nat) : Prop extends
    Threads Thread.Holds Thread.Owns (Placed s.key s.next p age now) (Ready s.key) (age · = 0) s where
  path : IsPath s.key p S
  trail : Trail (rank s.key) s.next p age now
  head_key : s.key HEAD = INT_MIN
  live : ∀ x, 0 < age x → s.live x = true

section
variable {s : St} {p : List Nat} {S : Finset Int} {age : Nat → Nat} {now : Nat} {t : Nat}

theorem Inv.head_age (h : Inv s p S age now) : age HEAD = now :=
  (h.trail.mem HEAD).mp h.path.head_mem

/-- The head has a rank below its key. -/
theorem Inv.rank_le_key (h : Inv s p S age now) (x : Nat) : rank s.key x ≤ s.key x := by
  by_cases hx : x = HEAD
  · rw [hx, rank_head, h.head_key]
    omega
  · rw [rank_of_ne hx]

/-- From a node with a key below `INT_MAX` a thread goes on to one that is or was on the path. -/
theorem Inv.next_ok (h : Inv s p S age now) {x : Nat} (hx : 0 < age x) (hkey : s.key x < INT_MAX) :
    rank s.key x < rank s.key (s.next x) ∧ 0 < age (s.next x) ∧
      (age (s.next x) = now ∨ age x < age (s.next x)) := by
  refine h.trail.next_of_pos h.path.asc hx fun he => ?_
  rw [h.path.last] at he
  rw [← Option.some.inj he, h.path.tail] at hkey
  exact lt_irrefl _ hkey

/-- The step of a thread that changes neither nodes nor the path. -/
theorem Inv.quiet (h : Inv s p S age now) {l : Thread} {o : Nat → Option Nat}
    {hist : List (Event Op Bool)} (hplaced : Placed s.key s.next p age now l)
    (hready : Ready s.key l) (hown : ∀ x, l.Owns x → (s.thread t).Owns x)
    (ho : Owned Thread.Holds o (Function.update s.thread t l)) :
    Inv { s.setThread t l with owner := o, hist := hist } p S age now :=
  ⟨h.toThreads.quiet hplaced hready hown ho, h.path, h.trail, h.head_key, h.live⟩

/-- A step inside the operation: the operation and its node stay. -/
theorem Inv.walk (h : Inv s p S age now) {l : Thread} {o : Nat → Option Nat}
    (hpc : (s.thread t).pc ≠ .idle) (hop : l.op = (s.thread t).op ∧ l.node = (s.thread t).node)
    (hn : l.pc.hasNode = true → (s.thread t).pc.hasNode = true)
    (hplaced : Placed s.key s.next p age now l)
    (ho : Owned Thread.Holds o (Function.update s.thread t l)) :
    Inv { s.setThread t l with owner := o } p S age now := by
  refine h.quiet hplaced ((h.ready t).of hpc hop.1 hop.2 hn) ?_ ho
  rintro x ⟨h1, h2, rfl⟩
  rw [hop.1] at h2
  exact ⟨hn h1, h2, hop.2⟩

/-- A step that only goes on, with the same locks. -/
theorem Inv.goto (h : Inv s p S age now) {a b : Pc} (hpc : (s.thread t).pc = a)
    (hab : a ≠ .idle ∧ b.hasPrev = a.hasPrev ∧ b.hasCurr = a.hasCurr ∧
      (b.hasNode = true → a.hasNode = true))
    (hplaced : Placed s.key s.next p age now { s.thread t with pc := b }) :
    Inv (s.setThread t { s.thread t with pc := b }) p S age now := by
  subst hpc
  exact h.walk hab.1 ⟨rfl, rfl⟩ hab.2.2.2 hplaced (h.owner.keep (twoLocks_congr hab.2.1 hab.2.2.1))

/-! ## Steps that change the nodes, seen from the other threads -/

theorem Inv.pos_of_follows (h : Inv s p S age now) {x y : Nat} (hf : Follows p x y) :
    0 < age x ∧ 0 < age y :=
  ⟨h.trail.pos_of_mem hf.left_mem, h.trail.pos_of_mem hf.right_mem⟩

/-- A held node is or was on the path. -/
theorem Inv.pos_of_holds (h : Inv s p S age now) {x : Nat} (hx : (s.thread t).Holds x) :
    0 < age x := by
  have hp := h.placed t
  unfold Placed at hp
  obtain ⟨l, hl⟩ : ∃ l, l = s.thread t := ⟨_, rfl⟩
  rw [← hl] at hx hp
  have hboth : 0 < age l.prev ∧ 0 < age l.curr → 0 < age x := by
    rcases hx with ⟨-, rfl⟩ | ⟨-, rfl⟩
    · exact And.left
    · exact And.right
  cases hpc : l.pc <;> rw [hpc] at hp
  case idle | malloc | readHead | test | advance | lockPrev | ret =>
    rcases hx with ⟨hc, -⟩ | ⟨hc, -⟩ <;> (rw [hpc] at hc; cases hc)
  case lockCurr => exact hboth ⟨hp.prev, hp.curr⟩
  case valTest | valStep | valNext => exact hboth ⟨hp.1.prev, hp.1.curr⟩
  case failPrev | unlockPrev => exact hboth hp.2
  case failCurr | unlockCurr =>
    rcases hx with ⟨hc, -⟩ | ⟨-, rfl⟩
    · rw [hpc] at hc
      cases hc
    · exact hp
  case decide => exact hboth (h.pos_of_follows hp.follows)
  case linkNode | linkPrev | readUnlink | unlink => exact hboth (h.pos_of_follows hp.1.follows)

end

/-- What a step of another thread leaves as it is: the keys of the nodes that are or were on the
path, what follows the nodes that `l` holds, and which of them are on the path. -/
structure Stable (key key' : Nat → Int) (p p' : List Nat) (age age' : Nat → Nat) (now now' : Nat)
    (l : Thread) : Prop where
  pos : ∀ x ∈ p, 0 < age x
  keys : ∀ x, 0 < age x → key' x = key x
  ages : ∀ x, 0 < age x → 0 < age' x
  later : ∀ x y, l.Holds x → 0 < age x → age x = now ∨ age x < age y →
    age' x = now' ∨ age' x < age' y
  follows : ∀ x y, l.Holds x → Follows p x y → Follows p' x y
  mem : ∀ x, l.Holds x → x ∈ p → x ∈ p'

section
variable {key key' : Nat → Int} {next next' : Nat → Nat} {p p' : List Nat} {age age' : Nat → Nat}
  {now now' : Nat} {l : Thread}

theorem Stable.rank (h : Stable key key' p p' age age' now now' l) {x : Nat} (hx : 0 < age x) :
    rank key' x = rank key x := by
  unfold ListSet.rank
  rw [h.keys x hx]

theorem Near.mono (hs : Stable key key' p p' age age' now now' l) (h : Near key age l) :
    Near key' age' l := by
  refine ⟨hs.ages _ h.prev, hs.ages _ h.curr, ?_, ?_, ?_⟩
  · rw [hs.rank h.prev, hs.rank h.curr]
    exact h.asc
  · rw [hs.rank h.prev]
    exact h.below
  · rw [hs.keys _ h.curr]
    exact h.above

theorem Checked.mono (hs : Stable key key' p p' age age' now now' l) (h : Checked age now l)
    (hprev : 0 < age l.prev) (hpc : l.pc.hasPrev = true) : Checked age' now' l :=
  ⟨hs.ages _ h.it, hs.later _ _ (twoLocks_prev hpc) hprev h.later⟩

theorem Between.mono (hs : Stable key key' p p' age age' now now' l) (h : Between key p l)
    (hpc : l.pc.hasPrev = true) : Between key' p' l := by
  refine ⟨hs.follows _ _ (twoLocks_prev hpc) h.follows, ?_, ?_⟩
  · rw [hs.rank (hs.pos _ h.follows.left_mem)]
    exact h.below
  · rw [hs.keys _ (hs.pos _ h.follows.right_mem)]
    exact h.above

theorem Between.key_eq (hs : Stable key key' p p' age age' now now' l) (h : Between key p l) :
    key' l.curr = key l.curr :=
  hs.keys _ (hs.pos _ h.follows.right_mem)

/-- A thread's place does not change by such a step. -/
theorem Placed.mono (hs : Stable key key' p p' age age' now now' l)
    (h : Placed key next p age now l) (hn : l.pc = .linkPrev → next' l.node = next l.node) :
    Placed key' next' p' age' now' l := by
  unfold Placed at h ⊢
  cases hpc : l.pc with
  | idle | malloc | readHead | ret => trivial
  | failPrev | unlockPrev =>
    rw [hpc] at h
    exact ⟨h.1, hs.ages _ h.2.1, hs.ages _ h.2.2⟩
  | failCurr | unlockCurr => rw [hpc] at h; exact hs.ages _ h
  | test =>
    rw [hpc] at h
    obtain ⟨h1, h2, h3, h4⟩ := h
    refine ⟨hs.ages _ h1, hs.ages _ h2, ?_⟩
    rw [hs.rank h1, hs.rank h2]
    exact ⟨h3, h4⟩
  | advance =>
    rw [hpc] at h
    exact ⟨hs.ages _ h.1, by rw [hs.keys _ h.1]; exact h.2⟩
  | lockPrev | lockCurr => rw [hpc] at h; exact Near.mono hs h
  | valTest =>
    rw [hpc] at h
    exact ⟨Near.mono hs h.1, Checked.mono hs h.2 h.1.prev (by rw [hpc]; rfl)⟩
  | valStep =>
    rw [hpc] at h
    exact ⟨Near.mono hs h.1, Checked.mono hs h.2.1 h.1.prev (by rw [hpc]; rfl), h.2.2⟩
  | valNext =>
    rw [hpc] at h
    exact ⟨Near.mono hs h.1, h.2.1, hs.mem _ (twoLocks_prev (by rw [hpc]; rfl)) h.2.2⟩
  | decide =>
    rw [hpc] at h
    exact Between.mono hs h (by rw [hpc]; rfl)
  | linkNode =>
    rw [hpc] at h
    refine ⟨Between.mono hs h.1 (by rw [hpc]; rfl), ?_⟩
    rw [Between.key_eq hs h.1]
    exact h.2
  | linkPrev =>
    rw [hpc] at h
    refine ⟨Between.mono hs h.1 (by rw [hpc]; rfl), ?_⟩
    rw [Between.key_eq hs h.1, hn hpc]
    exact h.2
  | readUnlink =>
    rw [hpc] at h
    refine ⟨Between.mono hs h.1 (by rw [hpc]; rfl), ?_⟩
    rw [Between.key_eq hs h.1]
    exact h.2
  | unlink =>
    rw [hpc] at h
    refine ⟨Between.mono hs h.1 (by rw [hpc]; rfl), ?_⟩
    rw [Between.key_eq hs h.1]
    exact ⟨h.2.1, h.2.2.1, hs.follows _ _ (twoLocks_curr (by rw [hpc]; rfl)) h.2.2.2⟩

end

end MulticorePrac.ListSet.Opt
