import MulticorePrac.House.Model

/-!
# Project1: the search with several workers (`BFSMultiThreadContext`)

`Run` starts the workers and gives the start house to worker 0.  A worker that has
work runs level after level.  In a level it hands vertices to workers without work,
visits the neighbours of the others, and meets the other workers at a barrier made of
two bitmaps for each parity of `dist`: who is done with the level, and who is expected.
The first worker past the barrier prepares the bitmaps of the next level.  A worker
with no vertices left, or one that finds all houses visited, takes its bit out of the
expected ones and waits for new work, until no worker has any.

Each shared access is a step, in the order of the source; the barrier condition loads
the done bits, the expected bits and the expected bits again.  What one mutex guards
for all threads is one step: an access to `result_`, the `|=` on `visit_bits_`, and
`--`, `++`, `|=`, `&=` on what is written under `worker_making_mutex_` only.
`worker_done_bits` is also cleared without its mutex, so its load and store are apart.
Other searches may set any bit of `visit_bits_` but the own one at any time; this
search sets its bit for others too, which no step here reads.  `num_free_threads_` is
never read and left out.

The two buffers of a worker are its own: the calls of `AllocIntVector` and
`FreeIntVector` at the two ends of `BeginWorkAt` are left out.  They are taken to succeed,
which the pool of `util.cpp` does not promise; they do when `VectorPool.Covered` holds at
every step.

`updates` and `otherBits` record what was passed to `result_.Update`, with the vertex,
and what other searches have set; no step reads them.
-/

namespace MulticorePrac.MultiBfs

open House (Bits BFSResult Problem gPow2 fullVisitBits visitOrder)

/-! ## The state -/

/-- Where a worker is in `BeginWorkAt`. -/
inductive Pc
  | idle
  | idleFree
  | load
  | levelTest
  | giveTest
  | giveLock
  | giveCheck
  | giveBreak
  | giveDec
  | giveScan
  | giveParam
  | giveFull
  | giveBusy
  | giveUnlock
  | visit
  | mark
  | update
  | setBits
  | doneLock
  | doneLoad
  | doneStore
  | doneUnlock
  | waitDone
  | waitFull
  | waitFullAgain
  | passLock
  | passTest
  | resetDone
  | copyFull
  | setFlag
  | clearFlag
  | passUnlock
  | leaveLock
  | leaveFull
  | leaveNext
  | leaveBusy
  | leaveFree
  | leaveUnlock
  | finished
  | fault
  deriving DecidableEq, Repr

/-- The local variables.  `todo` are the neighbours of the current vertex that are still to be
visited, `v` is the one in `VisitVertex`, `bits` is what was loaded from a bitmap. -/
structure Worker where
  pc : Pc
  cur : List Nat
  next : List Nat
  dist : Nat
  todo : List Nat
  v : Nat
  lastVertex : Nat
  i : Nat
  bits : Bits
  deriving DecidableEq, Repr

/-- The variables of the barrier and of the handing out of work.  The last three are the
`WorkParam`s. -/
structure Sync where
  workerDoneBits : Nat → Bits
  workerDoneFullBits : Nat → Bits
  doneBitsFlag : Nat → Bool
  workerDoneBitsMutex : Option Nat
  workerMakingMutex : Option Nat
  numFreeWorkers : Nat
  isBusy : Nat → Bool
  startVertex : Nat → Nat
  startDist : Nat → Nat

/-- `Run`: the next worker to create, then the next one to join. -/
inductive MainPc
  | create (k : Nat)
  | join (k : Nat)
  | returned
  deriving DecidableEq, Repr

structure St where
  sync : Sync
  checkMap : Nat → Bool
  visitBits : Bits
  otherBits : Bits
  result : BFSResult
  updates : List (Nat × Nat)
  worker : Nat → Worker
  mainPc : MainPc

inductive Act
  | worker (w : Nat)
  | main
  | other (j : Nat)
  deriving DecidableEq, Repr

def Worker.goto (l : Worker) (pc : Pc) : Worker := { l with pc := pc }

/-- Worker `w` becomes `l`. -/
def St.move (s : St) (w : Nat) (l : Worker) : St :=
  { s with worker := Function.update s.worker w l }

/-- Worker `w` becomes `l` and the variables of the barrier become `y`. -/
def St.moveSync (s : St) (w : Nat) (l : Worker) (y : Sync) : St :=
  { s with worker := Function.update s.worker w l, sync := y }

/-! ## `BeginWorkAt`

The functions are the parts of its body: the wait for work, the head of the level loop,
the loop that hands out work, the visits, the barrier and the end. -/

def idleStep (n : Nat) (s : St) (w : Nat) : Option St :=
  let l := s.worker w
  match l.pc with
  | .idle =>
    if s.sync.isBusy w then some (s.move w (l.goto .load)) else some (s.move w (l.goto .idleFree))
  | .idleFree =>
    if s.sync.numFreeWorkers = n then some (s.move w (l.goto .finished))
    else some (s.move w (l.goto .idle))
  | .load =>
    some (s.move w { l with
      pc := .levelTest, next := l.next ++ [s.sync.startVertex w], dist := s.sync.startDist w })
  | _ => none

/-- The condition of the level loop, and `swap`. -/
def levelStep (p : Problem) (start : Nat) (s : St) (w : Nat) : Option St :=
  let l := s.worker w
  if s.visitBits ≠ fullVisitBits (p.context.houseIndexMap start) p.houses.length ∧ l.next ≠ [] then
    some (s.move w { l with pc := .giveTest, cur := l.next, next := l.cur })
  else some (s.move w (l.goto .leaveLock))

/-- The loop that hands the last vertex to a worker without work; without such a worker it
would use `workers_` past its end. -/
def giveStep (n : Nat) (s : St) (w : Nat) : Option St :=
  let l := s.worker w
  let y := s.sync
  match l.pc with
  | .giveTest =>
    if 0 < y.numFreeWorkers ∧ 1 < l.cur.length then some (s.move w (l.goto .giveLock))
    else some (s.move w (l.goto .visit))
  | .giveLock =>
    if y.workerMakingMutex = none then
      some (s.moveSync w (l.goto .giveCheck) { y with workerMakingMutex := some w })
    else none
  | .giveCheck =>
    if y.numFreeWorkers = 0 then some (s.move w (l.goto .giveBreak))
    else some (s.move w (l.goto .giveDec))
  | .giveBreak => some (s.moveSync w (l.goto .visit) { y with workerMakingMutex := none })
  | .giveDec =>
    some (s.moveSync w
      { l with pc := .giveScan, lastVertex := l.cur.getLastD 0, cur := l.cur.dropLast, i := 0 }
      { y with numFreeWorkers := y.numFreeWorkers - 1 })
  | .giveScan =>
    if l.i < n then
      if y.isBusy l.i then some (s.move w { l with pc := .giveScan, i := l.i + 1 })
      else some (s.move w (l.goto .giveParam))
    else some (s.move w (l.goto .fault))
  | .giveParam =>
    some (s.moveSync w (l.goto .giveFull) { y with
      startVertex := Function.update y.startVertex l.i l.lastVertex
      startDist := Function.update y.startDist l.i l.dist })
  | .giveFull =>
    some (s.moveSync w (l.goto .giveBusy) { y with
      workerDoneFullBits := Function.update y.workerDoneFullBits (l.dist % 2)
        (y.workerDoneFullBits (l.dist % 2) ||| gPow2 l.i) })
  | .giveBusy =>
    some (s.moveSync w (l.goto .giveUnlock) { y with isBusy := Function.update y.isBusy l.i true })
  | .giveUnlock => some (s.moveSync w (l.goto .giveTest) { y with workerMakingMutex := none })
  | _ => none

/-- `VisitNeighborsOf` for each vertex, and `VisitVertex`: the test of `check_map_`, the store,
the update of the result and of the bitmap. -/
def visitStep (p : Problem) (s : St) (w : Nat) : Option St :=
  let l := s.worker w
  match l.pc with
  | .visit =>
    match l.todo, l.cur with
    | v :: todo, _ =>
      if s.checkMap v then some (s.move w { l with pc := .visit, todo := todo })
      else some (s.move w { l with pc := .mark, v := v, todo := todo })
    | [], v :: cur =>
      some (s.move w { l with pc := .visit, cur := cur, todo := visitOrder (p.context.adjlist v) })
    | [], [] => some (s.move w (l.goto .doneLock))
  | .mark =>
    let pc := if p.context.houseBitmap l.v then Pc.update else Pc.visit
    some { s.move w { l with pc := pc, next := l.next ++ [l.v] } with
      checkMap := Function.update s.checkMap l.v true }
  | .update =>
    some { s.move w (l.goto .setBits) with
      result := s.result.update (l.dist + 1)
      updates := (l.v, l.dist + 1) :: s.updates }
  | .setBits =>
    some { s.move w (l.goto .visit) with
      visitBits := s.visitBits ||| gPow2 (p.context.houseIndexMap l.v) }
  | _ => none

/-- The end of the level: the own done bit, the wait, and the bitmaps of the next level. -/
def barrierStep (s : St) (w : Nat) : Option St :=
  let l := s.worker w
  let y := s.sync
  let d := l.dist % 2
  let d' := 1 - l.dist % 2
  match l.pc with
  | .doneLock =>
    if y.workerDoneBitsMutex = none then
      some (s.moveSync w (l.goto .doneLoad) { y with workerDoneBitsMutex := some w })
    else none
  | .doneLoad => some (s.move w { l with pc := .doneStore, bits := y.workerDoneBits d })
  | .doneStore =>
    some (s.moveSync w (l.goto .doneUnlock) { y with
      workerDoneBits := Function.update y.workerDoneBits d (l.bits ||| gPow2 w) })
  | .doneUnlock => some (s.moveSync w (l.goto .waitDone) { y with workerDoneBitsMutex := none })
  | .waitDone => some (s.move w { l with pc := .waitFull, bits := y.workerDoneBits d })
  | .waitFull =>
    some (s.move w { l with pc := .waitFullAgain, bits := l.bits &&& y.workerDoneFullBits d })
  | .waitFullAgain =>
    if l.bits ≠ y.workerDoneFullBits d then some (s.move w (l.goto .waitDone))
    else some (s.move w (l.goto .passLock))
  | .passLock =>
    if y.workerMakingMutex = none then
      some (s.moveSync w (l.goto .passTest) { y with workerMakingMutex := some w })
    else none
  | .passTest =>
    if y.doneBitsFlag d then some (s.move w (l.goto .passUnlock))
    else some (s.move w (l.goto .resetDone))
  | .resetDone =>
    some (s.moveSync w (l.goto .copyFull) { y with
      workerDoneBits := Function.update y.workerDoneBits d' 0 })
  | .copyFull =>
    some (s.moveSync w (l.goto .setFlag) { y with
      workerDoneFullBits :=
        Function.update y.workerDoneFullBits d' (y.workerDoneFullBits d) })
  | .setFlag =>
    some (s.moveSync w (l.goto .clearFlag) { y with
      doneBitsFlag := Function.update y.doneBitsFlag d true })
  | .clearFlag =>
    some (s.moveSync w (l.goto .passUnlock) { y with
      doneBitsFlag := Function.update y.doneBitsFlag d' false })
  | .passUnlock =>
    some (s.moveSync w { l with pc := .levelTest, dist := l.dist + 1 }
      { y with workerMakingMutex := none })
  | _ => none

/-- `remover` clears the bit of worker `w`. -/
def remover (w : Nat) : Bits := 0xffffffffffffffff - gPow2 w

/-- After the level loop: out of the expected bits, and free. -/
def leaveStep (s : St) (w : Nat) : Option St :=
  let l := s.worker w
  let y := s.sync
  let clear (d : Nat) : Nat → Bits :=
    Function.update y.workerDoneFullBits d (y.workerDoneFullBits d &&& remover w)
  match l.pc with
  | .leaveLock =>
    if y.workerMakingMutex = none then
      some (s.moveSync w (l.goto .leaveFull) { y with workerMakingMutex := some w })
    else none
  | .leaveFull =>
    some (s.moveSync w (l.goto .leaveNext) { y with workerDoneFullBits := clear (l.dist % 2) })
  | .leaveNext =>
    some (s.moveSync w (l.goto .leaveBusy) { y with workerDoneFullBits := clear (1 - l.dist % 2) })
  | .leaveBusy =>
    some (s.moveSync w (l.goto .leaveFree) { y with isBusy := Function.update y.isBusy w false })
  | .leaveFree =>
    some (s.moveSync w (l.goto .leaveUnlock) { y with numFreeWorkers := y.numFreeWorkers + 1 })
  | .leaveUnlock => some (s.moveSync w (l.goto .idle) { y with workerMakingMutex := none })
  | _ => none

/-- `BeginWorkAt`, with the two buffers at hand. -/
def beginWorkAt (p : Problem) (start n : Nat) (s : St) (w : Nat) : Option St :=
  match (s.worker w).pc with
  | .idle | .idleFree | .load => idleStep n s w
  | .levelTest => levelStep p start s w
  | .giveTest | .giveLock | .giveCheck | .giveBreak | .giveDec | .giveScan | .giveParam | .giveFull
  | .giveBusy | .giveUnlock => giveStep n s w
  | .visit | .mark | .update | .setBits => visitStep p s w
  | .doneLock | .doneLoad | .doneStore | .doneUnlock | .waitDone | .waitFull | .waitFullAgain
  | .passLock | .passTest | .resetDone | .copyFull | .setFlag | .clearFlag
  | .passUnlock => barrierStep s w
  | .leaveLock | .leaveFull | .leaveNext | .leaveBusy | .leaveFree | .leaveUnlock => leaveStep s w
  | .finished | .fault => none

/-! ## `Run` -/

/-- The block for worker 0.  The other workers see of it that `num_free_workers_` is not all of
them, which it was not before either. -/
def St.begin (s : St) (start n : Nat) : St :=
  { s with
    sync := { s.sync with
      isBusy := Function.update s.sync.isBusy 0 true
      startVertex := Function.update s.sync.startVertex 0 start
      startDist := Function.update s.sync.startDist 0 0
      workerDoneFullBits := Function.update s.sync.workerDoneFullBits 0 1
      numFreeWorkers := n - 1 }
    mainPc := .join 0 }

/-- `Run`: create the workers from 1 on, then worker 0, and join them all. -/
def run (start n : Nat) (s : St) : Option St :=
  match s.mainPc with
  | .create k =>
    if k < n then
      some { s with
        sync := { s.sync with isBusy := Function.update s.sync.isBusy k false }
        mainPc := .create (k + 1) }
    else some (s.begin start n)
  | .join k =>
    if k < n then
      if (s.worker k).pc = .finished then some { s with mainPc := .join (k + 1) } else none
    else some { s with mainPc := .returned }
  | .returned => none

/-- The workers that `Run` has created. -/
def MainPc.Created : MainPc → Nat → Prop
  | .create k, w => 1 ≤ w ∧ w < k
  | .join _, _ => True
  | .returned, _ => True

instance : ∀ (m : MainPc) (w : Nat), Decidable (m.Created w)
  | .create _, _ => inferInstanceAs (Decidable (_ ∧ _))
  | .join _, _ => isTrue trivial
  | .returned, _ => isTrue trivial

def step (p : Problem) (start n : Nat) (s : St) : Act → Option St
  | .worker w => if w < n ∧ s.mainPc.Created w then beginWorkAt p start n s w else none
  | .main => run start n s
  | .other j =>
    if j < p.houses.length ∧ j ≠ p.context.houseIndexMap start then
      some { s with visitBits := s.visitBits ||| gPow2 j, otherBits := s.otherBits ||| gPow2 j }
    else none

def Sync.initial : Sync where
  workerDoneBits _ := 0
  workerDoneFullBits _ := 0
  doneBitsFlag _ := false
  workerDoneBitsMutex := none
  workerMakingMutex := none
  numFreeWorkers := 0
  isBusy _ := false
  startVertex _ := 0
  startDist _ := 0

def Worker.initial : Worker := ⟨.idle, [], [], 0, [], 0, 0, 0, 0⟩

/-- After the constructor and the first line of `Run`. -/
def initial (start : Nat) : St where
  sync := .initial
  checkMap := Function.update (fun _ => false) start true
  visitBits := 0
  otherBits := 0
  result := .empty
  updates := []
  worker _ := .initial
  mainPc := .create 1

/-- One search from the house `start` with `n` workers. -/
def search (p : Problem) (start n : Nat) : Machine St Act where
  init := initial start
  step := step p start n

end MulticorePrac.MultiBfs
