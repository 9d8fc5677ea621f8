import MulticorePrac.ListSet.State

/-!
# Lab11: the optimistic list (`optimistic.cpp`)

An operation goes along the list without locks, locks `prev` and `curr`, and then lets
`list_validate` go from the head to `prev` to see that `prev` is still in the list, with
`curr` after it; if not, it unlocks both and starts again.  Nodes are never freed, since
another thread may still be on them.  Every read of a `next` field or of the key of `curr`,
every lock, unlock and write is a step of its own; the two keys that `list_validate`
compares are never written again, and are read in one step.
-/

namespace MulticorePrac.ListSet.Opt

inductive Pc
  | idle
  | malloc
  | readHead
  | test
  | advance
  | lockPrev
  | lockCurr
  | valTest
  | valStep
  | valNext
  | failPrev
  | failCurr
  | decide
  | linkNode
  | linkPrev
  | readUnlink
  | unlink
  | unlockPrev
  | unlockCurr
  | ret
  deriving DecidableEq, Repr

/-- The variables of a thread, with `it` of `list_validate`; `tmp` is the value of `curr->next` in
`prev->next = curr->next`. -/
structure Thread where
  pc : Pc
  op : Op
  calls : Nat
  node : Nat
  prev : Nat
  curr : Nat
  it : Nat
  tmp : Nat
  ret : Bool
  deriving DecidableEq, Repr

abbrev St := State Thread

/-- The comparison with `curr->key` after the validation, and what the operation does then. -/
def decideStep (s : St) (l : Thread) : Thread :=
  match l.op with
  | .add k =>
    if s.key l.curr = k then { l with ret := false, pc := .unlockPrev } else { l with pc := .linkNode }
  | .remove k =>
    if s.key l.curr ≠ k then { l with ret := false, pc := .unlockPrev } else { l with pc := .readUnlink }
  | .contains k => { l with ret := decide (s.key l.curr = k), pc := .unlockPrev }

/-- The tests in the loop of `list_validate`. -/
def valTest (s : St) (l : Thread) : Pc :=
  if s.key l.it ≤ s.key l.prev then
    if l.it = l.prev then .valNext else .valStep
  else .failPrev

/-- The next step of thread `t` in its operation; `valTest`, `valStep` and `valNext` are the loop of
`list_validate`. -/
def runStep (s : St) (t : Nat) : Option St :=
  let l := s.thread t
  match l.pc with
  | .idle => none
  | .malloc => none
  | .readHead => some (s.setThread t { l with prev := HEAD, curr := s.next HEAD, pc := .test })
  | .test =>
    some (s.setThread t { l with pc := if s.key l.curr < l.op.key then .advance else .lockPrev })
  | .advance => some (s.setThread t { l with prev := l.curr, curr := s.next l.curr, pc := .test })
  | .lockPrev => s.lock t l.prev { l with pc := .lockCurr }
  | .lockCurr => s.lock t l.curr { l with it := HEAD, pc := .valTest }
  | .valTest => some (s.setThread t { l with pc := valTest s l })
  | .valStep => some (s.setThread t { l with it := s.next l.it, pc := .valTest })
  | .valNext =>
    some (s.setThread t { l with pc := if s.next l.it = l.curr then .decide else .failPrev })
  | .failPrev => some (s.unlock t l.prev { l with pc := .failCurr })
  | .failCurr => some (s.unlock t l.curr { l with pc := .readHead })
  | .decide => some (s.setThread t (decideStep s l))
  | .linkNode => some (s.write t l.node l.curr { l with pc := .linkPrev })
  | .linkPrev => some (s.write t l.prev l.node { l with ret := true, pc := .unlockPrev })
  | .readUnlink => some (s.setThread t { l with tmp := s.next l.curr, pc := .unlink })
  | .unlink => some (s.write t l.prev l.tmp { l with ret := true, pc := .unlockPrev })
  | .unlockPrev => some (s.unlock t l.prev { l with pc := .unlockCurr })
  | .unlockCurr => some (s.unlock t l.curr { l with pc := .ret })
  | .ret => some { s.setThread t { l with calls := l.calls + 1, pc := .idle } with
      hist := s.hist ++ [.ret (t, l.calls) l.ret] }

/-- A thread calls an operation with a key below `INT_MAX`. -/
def callStep (s : St) (t : Nat) (op : Op) : Option St :=
  let l := s.thread t
  if l.pc = .idle ∧ op.InRange then
    some { s.setThread t { l with
        op := op
        pc := if op.needsNode then .malloc else .readHead } with
      hist := s.hist ++ [.call (t, l.calls) op] }
  else none

/-- `malloc`, with the initialisation of the key and the mutex. -/
def mallocStep (s : St) (t addr junk : Nat) : Option St :=
  let l := s.thread t
  if l.pc = .malloc ∧ s.live addr = false ∧ addr ≠ NULL then
    some { s.setThread t { l with node := addr, pc := .readHead } with
      key := Function.update s.key addr l.op.key
      next := Function.update s.next addr junk
      owner := Function.update s.owner addr none
      live := Function.update s.live addr true }
  else none

def step (s : St) : Act → Option St
  | .call t op => callStep s t op
  | .malloc t addr junk => mallocStep s t addr junk
  | .run t => runStep s t

/-- `list_init`, and no thread in an operation. -/
def initial : St := listInit ⟨.idle, .contains 0, 0, 0, 0, 0, 0, 0, false⟩

def machine : Machine St Act := ⟨initial, step⟩

end MulticorePrac.ListSet.Opt
