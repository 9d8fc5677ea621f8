import MulticorePrac.Lib.Machine
import MulticorePrac.House.Graph

/-!
# Project1: house workers with the single-threaded search (`main.cpp`, `bfs.cpp`)

Each `HouseWorker` takes the next house under `g_house_index_mutex`, searches from
it with `BFSSingleThread`, and goes on until the houses but the last are taken.
`main` joins the workers in order, merges their results and prints the sum.

The shared accesses of a worker are steps of their own: the unlocked test of
`g_house_index`, the locked claim, the unlocked read of `visit_bits` in the loop
condition (once a level), and each `VISIT_VERTEX` with its locked update of the two
bitmap entries.  The check map and the two buffers belong to one search; the calls that
take them from the pool of `util.cpp` and give them back are left out and taken to succeed,
as they do when `VectorPool.Covered` holds at every step.
-/

namespace MulticorePrac.House

/-! ## `BFSResult` -/

structure BFSResult where
  minDist : Nat
  maxDist : Nat
  deriving DecidableEq, Repr

def BFSResult.empty : BFSResult := ⟨INT_MAX, 0⟩

def BFSResult.merge (r rhs : BFSResult) : BFSResult :=
  ⟨min r.minDist rhs.minDist, max r.maxDist rhs.maxDist⟩

def BFSResult.update (r : BFSResult) (dist : Nat) : BFSResult :=
  ⟨min r.minDist dist, max r.maxDist dist⟩

/-! ## The state -/

inductive WorkerPc
  | test
  | claim
  | level
  | visit
  | done
  deriving DecidableEq, Repr

/-- A worker: `total` is `result_`, the rest are the variables of the search it is in.  `nbrs` are
the neighbours of the current vertex that are still to be visited. -/
structure Worker where
  pc : WorkerPc
  houseIndex : Nat
  startHouse : Nat
  startIndex : Nat
  checkMap : Nat → Bool
  cur : List Nat
  nbrs : List Nat
  next : List Nat
  dist : Nat
  result : BFSResult
  total : BFSResult

inductive MainPc
  | join (k : Nat)
  | printed
  deriving DecidableEq, Repr

structure St where
  houseIndex : Nat
  visitBitmap : Nat → Bits
  worker : Nat → Worker
  mainPc : MainPc
  result : BFSResult

inductive Act
  | worker (w : Nat)
  | main
  deriving DecidableEq, Repr

def St.setWorker (s : St) (w : Nat) (l : Worker) : St :=
  { s with worker := Function.update s.worker w l }

/-! ## `BFSSingleThread` -/

/-- The order of the unrolled loop: from the last neighbour to the first, none past 10. -/
def visitOrder (neighbors : List Nat) : List Nat :=
  if neighbors.length ≤ MAX_EDGES_PER_VERTEX then neighbors.reverse else []

/-- The search up to its loop: nothing checked but the start. -/
def Worker.start (c : Context) (l : Worker) : Worker :=
  let house := c.houses.getD l.houseIndex 0
  { l with
    pc := .level
    startHouse := house
    startIndex := c.houseIndexMap house
    checkMap := Function.update (fun _ => false) house true
    cur := []
    nbrs := []
    next := [house]
    dist := 0
    result := .empty }

/-- The locked part of `VISIT_VERTEX`: both entries get the other's bit. -/
def setVisitBits (bitmap : Nat → Bits) (start house : Nat) : Nat → Bits :=
  let bitmap := Function.update bitmap start (bitmap start ||| gPow2 house)
  Function.update bitmap house (bitmap house ||| gPow2 start)

/-- `VISIT_VERTEX(v)`, with `nbrs` the neighbours left. -/
def visitVertex (c : Context) (s : St) (w v : Nat) (nbrs : List Nat) : St :=
  let l := s.worker w
  if l.checkMap v then s.setWorker w { l with nbrs := nbrs }
  else
    let l' := { l with
      nbrs := nbrs
      next := l.next ++ [v]
      checkMap := Function.update l.checkMap v true }
    if c.houseBitmap v then
      { s.setWorker w { l' with result := l.result.update (l.dist + 1) } with
        visitBitmap := setVisitBits s.visitBitmap l.startIndex (c.houseIndexMap v) }
    else s.setWorker w l'

/-- The loop condition: go on with the next level, or end the search and update `result_`. -/
def nextLevel (c : Context) (s : St) (w : Nat) : St :=
  let l := s.worker w
  if s.visitBitmap l.startIndex ≠ fullVisitBits l.startIndex c.houses.length ∧ l.next ≠ [] then
    s.setWorker w { l with pc := .visit, cur := l.next, next := [], nbrs := [] }
  else s.setWorker w { l with pc := .test, total := l.total.merge l.result }

/-! ## `HouseWorker::BFSThread` and `main` -/

def workerStep (c : Context) (s : St) (w : Nat) : Option St :=
  let l := s.worker w
  match l.pc with
  | .test =>
    if s.houseIndex + 1 < c.houses.length then some (s.setWorker w { l with pc := .claim })
    else some (s.setWorker w { l with pc := .done })
  | .claim =>
    let l := { l with houseIndex := s.houseIndex }
    let s' := { s with houseIndex := s.houseIndex + 1 }
    if s.houseIndex + 1 < c.houses.length then some (s'.setWorker w (l.start c))
    else some (s'.setWorker w { l with pc := .done })
  | .level => some (nextLevel c s w)
  | .visit =>
    match l.nbrs, l.cur with
    | v :: nbrs, _ => some (visitVertex c s w v nbrs)
    | [], v :: cur => some (s.setWorker w { l with cur := cur, nbrs := visitOrder (c.adjlist v) })
    | [], [] => some (s.setWorker w { l with pc := .level, dist := l.dist + 1 })
  | .done => none

section
variable {c : Context} {s : St} {w v : Nat} {vs : List Nat}

theorem workerStep_visit (hpc : (s.worker w).pc = .visit) (hn : (s.worker w).nbrs = v :: vs) :
    workerStep c s w = some (visitVertex c s w v vs) := by
  unfold workerStep
  simp only [hpc, hn]

theorem workerStep_vertex (hpc : (s.worker w).pc = .visit) (hn : (s.worker w).nbrs = [])
    (hc : (s.worker w).cur = v :: vs) : workerStep c s w =
      some (s.setWorker w { s.worker w with cur := vs, nbrs := visitOrder (c.adjlist v) }) := by
  unfold workerStep
  simp only [hpc, hn, hc]

theorem workerStep_endLevel (hpc : (s.worker w).pc = .visit) (hn : (s.worker w).nbrs = [])
    (hc : (s.worker w).cur = []) : workerStep c s w =
      some (s.setWorker w { s.worker w with pc := .level, dist := (s.worker w).dist + 1 }) := by
  unfold workerStep
  simp only [hpc, hn, hc]

end

/-- `JoinAndUpdateResult` on each of the `n` workers, then the output. -/
def mainStep (n : Nat) (s : St) : Option St :=
  match s.mainPc with
  | .join k =>
    if k < n then
      match (s.worker k).pc with
      | .done => some { s with mainPc := .join (k + 1), result := s.result.merge (s.worker k).total }
      | _ => none
    else some { s with mainPc := .printed }
  | .printed => none

def step (c : Context) (n : Nat) (s : St) : Act → Option St
  | .worker w => if w < n then workerStep c s w else none
  | .main => mainStep n s

def initialWorker : Worker :=
  ⟨.test, 0, 0, 0, fun _ => false, [], [], [], 0, .empty, .empty⟩

def initial : St where
  houseIndex := 0
  visitBitmap _ := 0
  worker _ := initialWorker
  mainPc := .join 0
  result := .empty

def houseWorkers (c : Context) (n : Nat) : Machine St Act where
  init := initial
  step := step c n

/-! ## The answer -/

/-- The lengths of the shortest paths between distinct houses. -/
def distances (p : Problem) : Set Nat :=
  { d | ∃ a ∈ p.houses, ∃ b ∈ p.houses, a ≠ b ∧ p.graph.Reachable a b ∧ p.graph.dist a b = d }

/-- `(minimum, maximum)`, or `(INT_MAX, 0)` when no two houses are connected. -/
def IsAnswer (p : Problem) (r : BFSResult) : Prop :=
  (distances p = ∅ ∧ r.minDist = INT_MAX ∧ r.maxDist = 0) ∨
    (IsLeast (distances p) r.minDist ∧ IsGreatest (distances p) r.maxDist)

end MulticorePrac.House
