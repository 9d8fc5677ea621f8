import MulticorePrac.ListSet.FineModel
import MulticorePrac.ListSet.Locking

/-!
# Lab11: the lock coupling of the fine-grained list

The nodes of the list form an ascending path.  A thread that goes along it holds the lock
of the node before the one it is about to lock, so that node stays where it is (`Inv`):
to take it out a thread would have to hold its predecessor.  A node that `list_add` has
not linked yet, or that `list_remove` has unlinked and not freed, belongs to one thread and
is not on the path.
-/

namespace MulticorePrac.ListSet.Fine

/-! ## What a thread has -/

/-- The lock of `prev` is held. -/
def Pc.hasPrev : Pc → Bool
  | .readHead | .lockCurr | .test | .unlockStep | .decide | .linkPrev | .linkNode | .readUnlink
  | .unlink | .unlockPrev => true
  | _ => false

/-- The lock of `curr` is held. -/
def Pc.hasCurr : Pc → Bool
  | .test | .unlockStep | .readNext | .decide | .linkPrev | .linkNode | .readUnlink | .unlink
  | .unlockPrev | .unlockCurr => true
  | _ => false

/-- The node of `list_add` is allocated and not linked. -/
def Pc.hasNode : Pc → Bool
  | .lockHead | .readHead | .lockCurr | .test | .unlockStep | .readNext | .decide | .linkPrev
  | .linkNode => true
  | _ => false

/-- The operation has taken effect, and `list_remove` has not freed the node. -/
def Pc.after : Pc → Bool
  | .unlockPrev | .unlockCurr | .free => true
  | _ => false

def Thread.Holds (l : Thread) (x : Nat) : Prop :=
  TwoLocks l.pc.hasPrev l.pc.hasCurr l.prev l.curr x

/-- The nodes that belong to the thread alone. -/
def Thread.Owns (l : Thread) (x : Nat) : Prop :=
  (l.pc.hasNode = true ∧ l.op.needsNode = true ∧ x = l.node) ∨
    (l.pc.after = true ∧ l.frees = true ∧ x = l.curr)

def Thread.phase (l : Thread) : Phase Op Bool :=
  match l.pc with
  | .idle => .idle
  | .unlockPrev | .unlockCurr | .free | .ret => .decided l.op l.ret
  | _ => .running l.op

/-! ## The invariant -/

/-- Where a thread is on the path. -/
def Placed (key : Nat → Int) (next : Nat → Nat) (p : List Nat) (l : Thread) : Prop :=
  match l.pc with
  | .readHead => l.prev = HEAD
  | .lockCurr | .test => Follows p l.prev l.curr ∧ rank key l.prev < l.op.key
  | .unlockStep => Follows p l.prev l.curr ∧ key l.curr < l.op.key
  | .readNext => l.curr ∈ p ∧ rank key l.curr < l.op.key
  | .decide => Follows p l.prev l.curr ∧ rank key l.prev < l.op.key ∧ l.op.key ≤ key l.curr
  | .linkPrev => Follows p l.prev l.curr ∧ rank key l.prev < l.op.key ∧ l.op.key < key l.curr ∧
      l.op = .add l.op.key
  | .linkNode => Follows p l.prev l.curr ∧ rank key l.prev < l.op.key ∧ l.op.key < key l.curr ∧
      l.op = .add l.op.key ∧ next l.prev = l.node
  | .readUnlink => Follows p l.prev l.curr ∧ rank key l.prev < l.op.key ∧ key l.curr = l.op.key ∧
      l.op = .remove l.op.key
  | .unlink => Follows p l.prev l.curr ∧ rank key l.prev < l.op.key ∧ key l.curr = l.op.key ∧
      l.op = .remove l.op.key ∧ Follows p l.curr l.tmp
  | .unlockPrev => l.prev ∈ p ∧ l.prev ≠ l.curr ∧ (l.curr ∈ p ∨ l.frees = true)
  | .unlockCurr => l.curr ∈ p ∨ l.frees = true
  | .free => l.frees = true
  | .idle | .malloc | .lockHead | .ret => True

/-- The key of the operation and of its node. -/
abbrev Ready (key : Nat → Int) (l : Thread) : Prop :=
  OpReady key (l.pc = .idle) l.op l.pc.hasNode l.node

structure Inv (s : St) (p : List Nat) (S : Finset Int) : Prop extends
    Threads Thread.Holds Thread.Owns (Placed s.key s.next p) (Ready s.key) (· ∉ p) s where
  path : IsPath s.key p S
  live : ∀ x ∈ p, s.live x = true
  links : ∀ x y, Follows p x y → s.next x = y ∨
    ∃ t, (s.thread t).pc = .linkNode ∧ (s.thread t).prev = x

section
variable {s : St} {p : List Nat} {S : Finset Int} {t : Nat}

/-- A thread that holds a node of the path, and is not just linking after it, reads its
successor. -/
theorem Inv.next_of_holds (h : Inv s p S) {x : Nat} (hx : (s.thread t).Holds x)
    (hpc : (s.thread t).pc ≠ .linkNode) {y : Nat} (hf : Follows p x y) : s.next x = y := by
  rcases h.links x y hf with hn | ⟨u, hu, hp⟩
  · exact hn
  · -- a thread that is linking after `x` holds it
    have hh : (s.thread u).Holds x := Or.inl ⟨by rw [hu]; rfl, hp.symm⟩
    rw [h.owner.inj hx hh] at hpc
    exact absurd hu hpc

/-- The links of the path, after a step of a thread that is not just linking. -/
theorem links_other {l : Thread} {x y : Nat} (hx : s.next x = y ∨
      ∃ u, (s.thread u).pc = .linkNode ∧ (s.thread u).prev = x)
    (ht : (s.thread t).pc = .linkNode → (s.thread t).prev ≠ x) :
    s.next x = y ∨ ∃ u, (Function.update s.thread t l u).pc = .linkNode ∧
      (Function.update s.thread t l u).prev = x := by
  refine hx.imp_right fun ⟨u, hu⟩ => ⟨u, ?_⟩
  have hut : u ≠ t := by
    rintro rfl
    exact ht hu.1 hu.2
  rw [Function.update_of_ne hut]
  exact hu

/-- The step of a thread that changes neither nodes nor the path. -/
theorem Inv.quiet (h : Inv s p S) {l : Thread} {o : Nat → Option Nat}
    {hist : List (Event Op Bool)} (hpc : (s.thread t).pc ≠ .linkNode)
    (hplaced : Placed s.key s.next p l) (hready : Ready s.key l)
    (hown : ∀ x, l.Owns x → (s.thread t).Owns x)
    (ho : Owned Thread.Holds o (Function.update s.thread t l)) :
    Inv { s.setThread t l with owner := o, hist := hist } p S :=
  ⟨h.toThreads.quiet hplaced hready hown ho, h.path, h.live,
    fun x y hf => links_other (h.links x y hf) fun hc => absurd hc hpc⟩

/-! ## Steps that change the nodes, seen from the other threads -/

/-- A thread's place depends on what follows the nodes it holds, and on keys of the path. -/
theorem Placed.mono {key key' : Nat → Int} {next next' : Nat → Nat} {p p' : List Nat} {l : Thread}
    (h : Placed key next p l) (hk : ∀ x ∈ p, key' x = key x)
    (hf : ∀ x y, l.Holds x → Follows p x y → Follows p' x y)
    (hm : ∀ x, l.Holds x → x ∈ p → x ∈ p') (hn : ∀ x, l.Holds x → next' x = next x) :
    Placed key' next' p' l := by
  have hr : ∀ x ∈ p, rank key' x = rank key x := by
    intro x hx
    unfold rank
    rw [hk x hx]
  unfold Placed at h ⊢
  cases hpc : l.pc with
  | idle | malloc | lockHead | ret => trivial
  | readHead => rw [hpc] at h; exact h
  | free => rw [hpc] at h; exact h
  | lockCurr | test =>
    rw [hpc] at h
    exact ⟨hf _ _ (twoLocks_prev (by rw [hpc]; rfl)) h.1, by rw [hr _ h.1.left_mem]; exact h.2⟩
  | unlockStep =>
    rw [hpc] at h
    exact ⟨hf _ _ (twoLocks_prev (by rw [hpc]; rfl)) h.1, by rw [hk _ h.1.right_mem]; exact h.2⟩
  | readNext =>
    rw [hpc] at h
    exact ⟨hm _ (twoLocks_curr (by rw [hpc]; rfl)) h.1, by rw [hr _ h.1]; exact h.2⟩
  | decide =>
    rw [hpc] at h
    refine ⟨hf _ _ (twoLocks_prev (by rw [hpc]; rfl)) h.1, ?_⟩
    rw [hr _ h.1.left_mem, hk _ h.1.right_mem]
    exact h.2
  | linkPrev =>
    rw [hpc] at h
    refine ⟨hf _ _ (twoLocks_prev (by rw [hpc]; rfl)) h.1, ?_⟩
    rw [hr _ h.1.left_mem, hk _ h.1.right_mem]
    exact h.2
  | linkNode =>
    rw [hpc] at h
    refine ⟨hf _ _ (twoLocks_prev (by rw [hpc]; rfl)) h.1, ?_⟩
    rw [hr _ h.1.left_mem, hk _ h.1.right_mem, hn _ (twoLocks_prev (by rw [hpc]; rfl))]
    exact h.2
  | readUnlink =>
    rw [hpc] at h
    refine ⟨hf _ _ (twoLocks_prev (by rw [hpc]; rfl)) h.1, ?_⟩
    rw [hr _ h.1.left_mem, hk _ h.1.right_mem]
    exact h.2
  | unlink =>
    rw [hpc] at h
    refine ⟨hf _ _ (twoLocks_prev (by rw [hpc]; rfl)) h.1, ?_⟩
    rw [hr _ h.1.left_mem, hk _ h.1.right_mem]
    exact ⟨h.2.1, h.2.2.1, h.2.2.2.1, hf _ _ (twoLocks_curr (by rw [hpc]; rfl)) h.2.2.2.2⟩
  | unlockPrev =>
    rw [hpc] at h
    exact ⟨hm _ (twoLocks_prev (by rw [hpc]; rfl)) h.1, h.2.1,
      h.2.2.imp_left (hm _ (twoLocks_curr (by rw [hpc]; rfl)))⟩
  | unlockCurr =>
    rw [hpc] at h
    exact Or.imp_left (hm _ (twoLocks_curr (by rw [hpc]; rfl))) h

/-- A held node is on the path, or it was taken out by the thread that holds it. -/
theorem Inv.mem_of_holds (h : Inv s p S) {x : Nat} (hx : (s.thread t).Holds x) :
    x ∈ p ∨ (s.thread t).Owns x := by
  have hp := h.placed t
  unfold Placed at hp
  obtain ⟨l, hl⟩ : ∃ l, l = s.thread t := ⟨_, rfl⟩
  rw [← hl] at hx hp ⊢
  cases hpc : l.pc with
  | idle | malloc | lockHead | ret | free =>
    rcases hx with ⟨hc, -⟩ | ⟨hc, -⟩ <;> (rw [hpc] at hc; cases hc)
  | readHead =>
    rw [hpc] at hp
    rcases hx with ⟨-, rfl⟩ | ⟨hc, -⟩
    · rw [hp]; exact Or.inl h.path.head_mem
    · rw [hpc] at hc; cases hc
  | readNext =>
    rw [hpc] at hp
    rcases hx with ⟨hc, -⟩ | ⟨-, rfl⟩
    · rw [hpc] at hc; cases hc
    · exact Or.inl hp.1
  | unlockPrev =>
    rw [hpc] at hp
    rcases hx with ⟨-, rfl⟩ | ⟨-, rfl⟩
    · exact Or.inl hp.1
    · exact hp.2.2.imp_right fun hfr => Or.inr ⟨by rw [hpc]; rfl, hfr, rfl⟩
  | unlockCurr =>
    rw [hpc] at hp
    rcases hx with ⟨hc, -⟩ | ⟨-, rfl⟩
    · rw [hpc] at hc; cases hc
    · exact hp.imp_right fun hfr => Or.inr ⟨by rw [hpc]; rfl, hfr, rfl⟩
  | lockCurr | test | unlockStep | decide | linkPrev | linkNode | readUnlink | unlink =>
    rw [hpc] at hp
    rcases hx with ⟨-, rfl⟩ | ⟨-, rfl⟩
    · exact Or.inl hp.1.left_mem
    · exact Or.inl hp.1.right_mem

theorem Inv.live_of_holds (h : Inv s p S) {x : Nat} (hx : (s.thread t).Holds x) :
    s.live x = true := by
  rcases h.mem_of_holds hx with hx | hx
  · exact h.live x hx
  · exact (h.owns t x hx).1

end

end MulticorePrac.ListSet.Fine
