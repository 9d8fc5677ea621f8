import MulticorePrac.Lib.Machine
import MulticorePrac.Lib.Chain

/-!
# Project2: the MVCC simulation (`mvcc.cpp`, `node.h`)

Each of `n` update threads keeps a list of versions of its own `(A, B)`, newest
first.  A transaction (`UpdateAB`) draws a version and copies the active thread
list under the mutex, reads one version of a random thread `i` without it,
pushes a new version of its own data without it, and takes itself off the
active list under the mutex.  The GC thread computes `ref_min_version` and cuts
the tails of the data lists while all this goes on.

A locked section is one step, and so is every unlocked read of a head or of a
node, every push and every erase.  Versions and `A`, `B` are unbounded.  The
field `log` records what happened (newest first); no step reads it.

`GC` names `cx.data_head` three times in its scan: for the null test, in the
comparison and in the assignment.  `HeadLoads.each` reads it each time, as the
source is written; `HeadLoads.once` reads it once for all three.
-/

namespace MulticorePrac.Mvcc

structure Data where
  version : Nat
  A : Int
  B : Int
  deriving DecidableEq, Repr

structure ActiveThread where
  id : Nat
  version : Nat
  deriving DecidableEq, Repr

/-- A node of the global active thread list. -/
structure ActiveNode where
  ptr : Nat
  data : ActiveThread
  deriving DecidableEq, Repr

/-- What ends a thread for good: one of the two assertions, or a freed or null node. -/
inductive Fault
  | assert204
  | assert224
  | freed
  deriving DecidableEq, Repr

/-- Where an update thread is in its loop. -/
inductive Pc
  | idle
  | pick
  | loadHead
  | test (node : Option Nat)
  | next (node : Nat)
  | copyX
  | push
  | leave
  | fault (f : Fault)
  deriving DecidableEq, Repr

/-- The local variables of `UpdateAB`; `targetVersion` is `none` when `contains` is false. -/
structure Local where
  pc : Pc
  myVersion : Nat
  myNode : Nat
  rv : List ActiveThread
  i : Nat
  targetVersion : Option Nat
  dataI : Data
  dataX : Data
  deriving DecidableEq, Repr

/-- Where the GC thread is.  `setLoad` remembers the node the comparison looked at. -/
inductive GcPc
  | start
  | nullTest (k : Nat)
  | testLoad (k : Nat)
  | testVersion (k : Nat) (node : Nat)
  | setLoad (k : Nat) (tested : Nat)
  | setVersion (k : Nat) (node : Nat)
  | walkLoad (i : Nat)
  | walkTest (i : Nat) (node : Option Nat)
  | walkNext (i : Nat) (node : Nat)
  | skip (i : Nat) (node : Nat)
  | skipNext (i : Nat) (prev : Nat)
  | erase (i : Nat) (prev : Nat) (node : Option Nat)
  | fault
  deriving DecidableEq, Repr

inductive Event
  | snapshot (x : Nat)
  | read (x i : Nat) (node : Nat × Data)
  | push (x : Nat) (node : Nat × Data)
  | erase (x : Nat)
  deriving DecidableEq, Repr

structure St where
  execOrder : Nat
  active : List ActiveNode
  head : Nat → Option Nat
  heap : Heap Data
  fresh : Nat
  thr : Nat → Local
  gcPc : GcPc
  refMin : Nat
  log : List Event

inductive HeadLoads
  | once
  | each
  deriving DecidableEq, Repr

inductive Act
  | thread (x : Nat)
  | pick (x i : Nat)
  | gc
  deriving DecidableEq, Repr

def INT_MAX : Nat := 2147483647

def A_PLUS_B : Nat := 100

def St.setThr (s : St) (x : Nat) (l : Local) : St := { s with thr := Function.update s.thr x l }

/-- Move thread `x` to another place of its loop. -/
def St.goto (s : St) (x : Nat) (pc : Pc) : St := s.setThr x { s.thr x with pc := pc }

/-! ## `UpdateAB` -/

/-- Lines 166-178, under the mutex: draw a version, enter the active list, copy the list
(`NodePushFront` on `rv` reverses it). -/
def snapshot (s : St) (x : Nat) : St :=
  match s.head x with
  | none => s.goto x (.fault .freed)
  | some a =>
    match s.heap a with
    | none => s.goto x (.fault .freed)
    | some c =>
      let active := ⟨s.fresh, ⟨x, c.data.version⟩⟩ :: s.active
      { s with
        execOrder := s.execOrder + 1
        active := active
        fresh := s.fresh + 1
        thr := Function.update s.thr x { s.thr x with
          pc := .pick
          myVersion := s.execOrder
          myNode := s.fresh
          rv := (active.map ActiveNode.data).reverse }
        log := .snapshot x :: s.log }

/-- Lines 181-195: choose thread `i` and look it up in the read view. -/
def pick (s : St) (x i : Nat) : St :=
  let l := s.thr x
  s.setThr x { l with
    pc := .loadHead
    i := i
    targetVersion := (l.rv.find? fun e => e.id == i).map ActiveThread.version }

/-- The data was found at `node` (lines 206-208 and 217-219). -/
def found (s : St) (x : Nat) (node : Nat) (d : Data) : St :=
  { s with
    thr := Function.update s.thr x { s.thr x with pc := .copyX, dataI := d }
    log := .read x (s.thr x).i (node, d) :: s.log }

/-- One look at a node of thread `i`'s data list (lines 202-222); running off the list fails
the assertion of line 224. -/
def test (s : St) (x : Nat) (node : Option Nat) : St :=
  match node with
  | none => s.goto x (.fault .assert224)
  | some a =>
    match s.heap a with
    | none => s.goto x (.fault .freed)
    | some c =>
      match (s.thr x).targetVersion with
      | some v =>
        if v ≤ c.data.version then
          if c.data.version = v then found s x a c.data else s.goto x (.next a)
        else s.goto x (.fault .assert204)
      | none =>
        if c.data.version < (s.thr x).myVersion then found s x a c.data else s.goto x (.next a)

/-- `data_node = data_node->next`. -/
def next (s : St) (x : Nat) (node : Nat) : St :=
  match s.heap node with
  | none => s.goto x (.fault .freed)
  | some c => s.goto x (.test c.next)

/-- Line 226: `Data data_x(self.data_head->data)`. -/
def copyX (s : St) (x : Nat) : St :=
  match s.head x with
  | none => s.goto x (.fault .freed)
  | some a =>
    match s.heap a with
    | none => s.goto x (.fault .freed)
    | some c => s.setThr x { s.thr x with pc := .push, dataX := c.data }

/-- The data of line 230; `%` truncates towards zero. -/
def newData (l : Local) : Data :=
  ⟨l.myVersion, l.dataX.A + l.dataI.A.tmod 100, l.dataX.B - l.dataI.A.tmod 100⟩

/-- Lines 229-230: `NodePushFront(&self.data_head, ...)`. -/
def push (s : St) (x : Nat) : St :=
  let d := newData (s.thr x)
  { s with
    head := Function.update s.head x (some s.fresh)
    heap := Function.update s.heap s.fresh (some ⟨s.head x, d⟩)
    fresh := s.fresh + 1
    thr := Function.update s.thr x { s.thr x with pc := .leave }
    log := .push x (s.fresh, d) :: s.log }

/-- Lines 233-235, under the mutex: `NodeErase(&g_active_thread_head, my_node)`. -/
def leave (s : St) (x : Nat) : St :=
  { s with
    active := s.active.eraseP fun e => e.ptr == (s.thr x).myNode
    thr := Function.update s.thr x { s.thr x with pc := .idle }
    log := .erase x :: s.log }

def updateAB (s : St) (x : Nat) : Option St :=
  match (s.thr x).pc with
  | .idle => some (snapshot s x)
  | .pick => none
  | .loadHead => some (s.goto x (.test (s.head (s.thr x).i)))
  | .test node => some (test s x node)
  | .next node => some (next s x node)
  | .copyX => some (copyX s x)
  | .push => some (push s x)
  | .leave => some (leave s x)
  | .fault _ => none

/-! ## `GC` -/

/-- The walk over thread `i`'s list, or the end of `GC`. -/
def walkFrom (n : Nat) (i : Nat) : GcPc := if i < n then .walkLoad i else .start

/-- The scan of thread `k`'s head, or the first walk. -/
def scanFrom (n : Nat) (k : Nat) : GcPc := if k < n then .nullTest k else walkFrom n 0

/-- Lines 91-102, under the mutex: the version of the last active entry. -/
def lastVersion (active : List ActiveNode) : Nat :=
  match active.getLast? with
  | none => INT_MAX
  | some e => e.data.version

/-- `NodeErase(prev_node, node)`: unlink, delete, and the new `prev_node->next`. -/
def nodeErase (h : Heap Data) (prev node : Nat) : Option (Heap Data × Option Nat) :=
  match h prev, h node with
  | some c, some e =>
    some (Function.update (Function.update h prev (some ⟨e.next, c.data⟩)) node none, e.next)
  | _, _ => none

def gc (m : HeadLoads) (n : Nat) (s : St) : Option St :=
  match s.gcPc with
  | .start => some { s with gcPc := scanFrom n 0, refMin := lastVersion s.active }
  | .nullTest k =>
    match s.head k with
    | none => some { s with gcPc := scanFrom n (k + 1) }
    | some a =>
      match m with
      | .once => some { s with gcPc := .testVersion k a }
      | .each => some { s with gcPc := .testLoad k }
  | .testLoad k =>
    match s.head k with
    | none => some { s with gcPc := .fault }
    | some a => some { s with gcPc := .testVersion k a }
  | .testVersion k a =>
    match s.heap a with
    | none => some { s with gcPc := .fault }
    | some c =>
      if c.data.version < s.refMin then
        match m with
        | .once => some { s with gcPc := scanFrom n (k + 1), refMin := c.data.version }
        | .each => some { s with gcPc := .setLoad k a }
      else some { s with gcPc := scanFrom n (k + 1) }
  | .setLoad k _ =>
    match s.head k with
    | none => some { s with gcPc := .fault }
    | some a => some { s with gcPc := .setVersion k a }
  | .setVersion k a =>
    match s.heap a with
    | none => some { s with gcPc := .fault }
    | some c => some { s with gcPc := scanFrom n (k + 1), refMin := c.data.version }
  | .walkLoad i => some { s with gcPc := .walkTest i (s.head i) }
  | .walkTest i none => some { s with gcPc := walkFrom n (i + 1) }
  | .walkTest i (some a) =>
    match s.heap a with
    | none => some { s with gcPc := .fault }
    | some c =>
      if c.data.version < s.refMin then some { s with gcPc := .skip i a }
      else some { s with gcPc := .walkNext i a }
  | .walkNext i a =>
    match s.heap a with
    | none => some { s with gcPc := .fault }
    | some c => some { s with gcPc := .walkTest i c.next }
  | .skip i a =>
    match s.heap a with
    | none => some { s with gcPc := .fault }
    | some c =>
      match c.next with
      | none => some { s with gcPc := walkFrom n (i + 1) }
      | some b => some { s with gcPc := .skipNext i b }
  | .skipNext i b =>
    match s.heap b with
    | none => some { s with gcPc := .fault }
    | some c => some { s with gcPc := .erase i b c.next }
  | .erase i _ none => some { s with gcPc := walkFrom n (i + 1) }
  | .erase i b (some a) =>
    match nodeErase s.heap b a with
    | none => some { s with gcPc := .fault }
    | some (h, nx) => some { s with heap := h, gcPc := .erase i b nx }
  | .fault => none

/-! ## The whole program -/

def step (m : HeadLoads) (n : Nat) (s : St) : Act → Option St
  | .thread x => if x < n then updateAB s x else none
  | .pick x i =>
    if x < n ∧ i < n then
      match (s.thr x).pc with
      | .pick => some (pick s x i)
      | _ => none
    else none
  | .gc => gc m n s

theorem step_thread {m : HeadLoads} {n x : Nat} {s s' : St} :
    step m n s (.thread x) = some s' ↔ x < n ∧ updateAB s x = some s' := by
  unfold step
  by_cases hx : x < n
  · simp [hx]
  · simp [hx]

theorem step_pick {m : HeadLoads} {n x i : Nat} {s s' : St} :
    step m n s (.pick x i) = some s' ↔
      (x < n ∧ i < n) ∧ (s.thr x).pc = .pick ∧ pick s x i = s' := by
  unfold step
  by_cases hx : x < n ∧ i < n
  · simp only [if_pos hx]
    cases hpc : (s.thr x).pc <;> simp [hx]
  · simp [hx]

/-- `main`, lines 338-347: the first data of thread `i`, from the `i`-th value of `rand()`. -/
def initialData (rand : Nat → Nat) (i : Nat) : Data :=
  ⟨i, (rand i % A_PLUS_B : Nat), (A_PLUS_B : Int) - (rand i % A_PLUS_B : Nat)⟩

def initialLocal : Local := ⟨.idle, 0, 0, [], 0, none, ⟨0, 0, 0⟩, ⟨0, 0, 0⟩⟩

def initial (rand : Nat → Nat) (n : Nat) : St where
  execOrder := n
  active := []
  head i := if i < n then some i else none
  heap a := if a < n then some ⟨none, initialData rand a⟩ else none
  fresh := n
  thr _ := initialLocal
  gcPc := .start
  refMin := INT_MAX
  log := []

def mvcc (m : HeadLoads) (rand : Nat → Nat) (n : Nat) : Machine St Act where
  init := initial rand n
  step := step m n

/-! ## What a log says -/

/-- The newest node of thread `i`. -/
def lastPushed (rand : Nat → Nat) : List Event → Nat → Nat × Data
  | [], i => (i, initialData rand i)
  | .push x node :: l, i => if x = i then node else lastPushed rand l i
  | _ :: l, i => lastPushed rand l i

/-- The node pushed by the last transaction of thread `i` that has erased itself from the
active list, or thread `i`'s initial node. -/
def lastCommitted (rand : Nat → Nat) : List Event → Nat → Nat × Data
  | [], i => (i, initialData rand i)
  | .erase x :: l, i => if x = i then lastPushed rand l i else lastCommitted rand l i
  | _ :: l, i => lastCommitted rand l i

/-- The log when thread `x` took its last snapshot. -/
def atSnapshot : List Event → Nat → List Event
  | [], _ => []
  | .snapshot y :: l, x => if y = x then l else atSnapshot l x
  | _ :: l, x => atSnapshot l x

/-- Every read in the log got the node of `i`'s last transaction that had left the active
list when the reader took its snapshot. -/
def ReadsSnapshot (rand : Nat → Nat) : List Event → Prop
  | [] => True
  | .read x i node :: l => node = lastCommitted rand (atSnapshot l x) i ∧ ReadsSnapshot rand l
  | _ :: l => ReadsSnapshot rand l

instance decidableReadsSnapshot (rand : Nat → Nat) : DecidablePred (ReadsSnapshot rand)
  | [] => isTrue trivial
  | .read x i node :: l =>
    haveI := decidableReadsSnapshot rand l
    inferInstanceAs (Decidable (node = lastCommitted rand (atSnapshot l x) i ∧ ReadsSnapshot rand l))
  | .snapshot _ :: l => decidableReadsSnapshot rand l
  | .push _ _ :: l => decidableReadsSnapshot rand l
  | .erase _ :: l => decidableReadsSnapshot rand l

end MulticorePrac.Mvcc
