import MulticorePrac.ListSet.State

/-!
# Lab11: the fine-grained list (`fine_grained.cpp`)

Hand-over-hand locking: an operation locks the head and the first node, and goes on by
unlocking `prev`, reading `curr->next` and locking that node, so that it always holds
the node before the one it locks.  Every lock, unlock, read, write and `free` is a step
of its own.  `malloc` may return any address that is not allocated, also one that was freed,
and `list_add` sets the `next` of the new node only after it has linked it.
-/

namespace MulticorePrac.ListSet.Fine

inductive Pc
  | idle
  | malloc
  | lockHead
  | readHead
  | lockCurr
  | test
  | unlockStep
  | readNext
  | decide
  | linkPrev
  | linkNode
  | readUnlink
  | unlink
  | unlockPrev
  | unlockCurr
  | free
  | ret
  deriving DecidableEq, Repr

/-- The variables of a thread; `tmp` is the value of `curr->next` in `prev->next = curr->next`, and
`calls` the number of operations it has completed. -/
structure Thread where
  pc : Pc
  op : Op
  calls : Nat
  node : Nat
  prev : Nat
  curr : Nat
  tmp : Nat
  ret : Bool
  deriving DecidableEq, Repr

abbrev St := State Thread

/-- The comparison with `curr->key` after the loop, and what the operation does then. -/
def decideStep (s : St) (l : Thread) : Thread :=
  match l.op with
  | .add k =>
    if s.key l.curr = k then { l with ret := false, pc := .unlockPrev } else { l with pc := .linkPrev }
  | .remove k =>
    if s.key l.curr ≠ k then { l with ret := false, pc := .unlockPrev } else { l with pc := .readUnlink }
  | .contains k => { l with ret := decide (s.key l.curr = k), pc := .unlockPrev }

/-- `list_remove` frees the node that it has taken out. -/
def Thread.frees (l : Thread) : Bool :=
  match l.op with
  | .remove _ => l.ret
  | _ => false

/-- The next step of thread `t` in its operation. -/
def runStep (s : St) (t : Nat) : Option St :=
  let l := s.thread t
  match l.pc with
  | .idle => none
  | .malloc => none
  | .lockHead => s.lock t HEAD { l with prev := HEAD, pc := .readHead }
  | .readHead => some (s.setThread t { l with curr := s.next HEAD, pc := .lockCurr })
  | .lockCurr => s.lock t l.curr { l with pc := .test }
  | .test =>
    some (s.setThread t { l with pc := if s.key l.curr < l.op.key then .unlockStep else .decide })
  | .unlockStep => some (s.unlock t l.prev { l with pc := .readNext })
  | .readNext => some (s.setThread t { l with prev := l.curr, curr := s.next l.curr, pc := .lockCurr })
  | .decide => some (s.setThread t (decideStep s l))
  | .linkPrev => some (s.write t l.prev l.node { l with pc := .linkNode })
  | .linkNode => some (s.write t l.node l.curr { l with ret := true, pc := .unlockPrev })
  | .readUnlink => some (s.setThread t { l with tmp := s.next l.curr, pc := .unlink })
  | .unlink => some (s.write t l.prev l.tmp { l with ret := true, pc := .unlockPrev })
  | .unlockPrev => some (s.unlock t l.prev { l with pc := .unlockCurr })
  | .unlockCurr => some (s.unlock t l.curr { l with pc := if l.frees then .free else .ret })
  | .free => some { s.setThread t { l with pc := .ret } with
      live := Function.update s.live l.curr false }
  | .ret => some { s.setThread t { l with calls := l.calls + 1, pc := .idle } with
      hist := s.hist ++ [.ret (t, l.calls) l.ret] }

/-- A thread calls an operation with a key below `INT_MAX`. -/
def callStep (s : St) (t : Nat) (op : Op) : Option St :=
  let l := s.thread t
  if l.pc = .idle ∧ op.InRange then
    some { s.setThread t { l with
        op := op
        pc := if op.needsNode then .malloc else .lockHead } with
      hist := s.hist ++ [.call (t, l.calls) op] }
  else none

/-- `malloc`, with the initialisation of the key and the mutex. -/
def mallocStep (s : St) (t addr junk : Nat) : Option St :=
  let l := s.thread t
  if l.pc = .malloc ∧ s.live addr = false ∧ addr ≠ NULL then
    some { s.setThread t { l with node := addr, pc := .lockHead } with
      key := Function.update s.key addr l.op.key
      next := Function.update s.next addr junk
      owner := Function.update s.owner addr none
      live := Function.update s.live addr true }
  else none

def step (s : St) : Act → Option St
  | .call t op => callStep s t op
  | .malloc t addr junk => mallocStep s t addr junk
  | .run t => runStep s t

/-- `list_init`, and no thread in an operation. -/
def initial : St := listInit ⟨.idle, .contains 0, 0, 0, 0, 0, 0, false⟩

def machine : Machine St Act := ⟨initial, step⟩

/-- The node that a thread's next step reads, writes, locks, unlocks or frees. -/
def Thread.touches (l : Thread) : Option Nat :=
  match l.pc with
  | .lockHead | .readHead => some HEAD
  | .lockCurr | .test | .readNext | .decide | .readUnlink | .unlockCurr | .free => some l.curr
  | .unlockStep | .linkPrev | .unlink | .unlockPrev => some l.prev
  | .linkNode => some l.node
  | .idle | .malloc | .ret => none

/-- The nodes that a thread goes on to touch by the pointers it has.  An address that is freed and
allocated again is a new node, so these must not be freed in the meantime. -/
def Thread.uses (l : Thread) : List Nat :=
  let node := if l.op.needsNode then [l.node] else []
  match l.pc with
  | .lockHead | .readHead => HEAD :: node
  | .lockCurr | .test | .unlockStep | .decide | .linkPrev | .linkNode => l.prev :: l.curr :: node
  | .readNext => l.curr :: node
  | .readUnlink | .unlink | .unlockPrev => [l.prev, l.curr]
  | .unlockCurr | .free => [l.curr]
  | .idle | .malloc | .ret => []

/-- `b` comes after `a` in the list: `a->next` is `b`, or it is a node between the two whose own
`next` is still to be set. -/
def St.Linked (s : St) (a b : Nat) : Prop :=
  s.next a = b ∨ ∃ t, (s.thread t).pc = .linkNode ∧ (s.thread t).prev = a ∧ (s.thread t).curr = b ∧
    s.next a = (s.thread t).node ∧ (a ≠ HEAD → s.key a < s.key (s.thread t).node) ∧
    s.key (s.thread t).node < s.key b

end MulticorePrac.ListSet.Fine
