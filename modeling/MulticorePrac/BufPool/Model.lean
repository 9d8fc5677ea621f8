import MulticorePrac.Lib.Machine

/-!
# Project3: the threaded `buf_pool_init` (`ryul/buf0buf.cc`)

The loop of `buf_pool_init` fills one `struct parameter`, creates a thread that
runs `buf_pool_init_instance` on its address, and goes on to the next instance;
then it joins all threads.  Every write of the loop to a field of `param`, every
read of such a field by a thread, and every access to the shared
`srv_n_page_hash_locks` is a step of its own; the work on a pool's own fields in
between is one step.

A pool keeps the fields that `buf_pool_init_instance` sets.  `buf_chunk_init` and
`pthread_create` are parameters: the chunk that the call for instance `i` gets
(`none` when the allocation fails), and the return value of the `i`-th
`pthread_create`, which is 0 or a positive error number.  `pthread_join` waits for a
created thread and returns at once on a handle that was never filled in; the place
`(void**) ret` for its result is not read by anyone.
-/

namespace MulticorePrac.BufPool

inductive DbErr
  | DB_SUCCESS
  | DB_ERROR
  deriving DecidableEq, Repr

def MAX_PAGE_HASH_LOCKS : Nat := 1024

/-- `while (res < n) res = res * 2`; `fuel` bounds the number of doublings. -/
def powerUpFrom (n : Nat) : Nat → Nat → Nat
  | 0, res => res
  | fuel + 1, res => if res < n then powerUpFrom n fuel (res * 2) else res

def ut2PowerUp (n : Nat) : Nat := powerUpFrom n n 1

/-- What a call of `buf_pool_init` gets and meets. -/
structure Config where
  totalSize : Nat
  nInstances : Nat
  pageSize : Nat
  nPageHashLocks : Nat
  nTmpSlots : Nat
  bufChunkInit : Nat → Nat → Option Nat
  pthreadCreate : Nat → Int
  instances_pos : 0 < nInstances
  locks_pos : 0 < nPageHashLocks
  locks_le : nPageHashLocks ≤ MAX_PAGE_HASH_LOCKS
  create_nonneg : ∀ i, 0 ≤ pthreadCreate i

/-- `const ulint size = total_size / n_instances`. -/
def Config.size (c : Config) : Nat := c.totalSize / c.nInstances

/-- `struct parameter`; a pool is its index in `buf_pool_ptr`. -/
structure Param where
  bufPool : Nat
  bufPoolSize : Nat
  instanceNo : Nat
  deriving DecidableEq, Repr

/-- `buf_pool_t`.  `mutexes` and `flush` stand for the objects made at the start and at the end;
`pageHash` has the cells and the locks of the hash table. -/
structure Pool where
  mutexes : Bool
  nChunks : Nat
  chunkSize : Nat
  instanceNo : Nat
  oldPoolSize : Nat
  currSize : Nat
  readAheadArea : Nat
  currPoolSize : Nat
  pageHash : Nat × Nat
  zipHash : Nat
  flush : Bool
  tmpSlots : Nat
  tryLRUScan : Bool
  freed : Bool
  deriving DecidableEq, Repr

/-- A pool as `mem_zalloc` leaves it. -/
def zeroed : Pool := ⟨false, 0, 0, 0, 0, 0, 0, 0, (0, 0), 0, false, 0, false, false⟩

/-! ## The parts of `buf_pool_init_instance` -/

/-- The chunk and the fields up to `curr_pool_size`. -/
def Pool.setChunk (c : Config) (p : Pool) (size no chunk : Nat) : Pool :=
  { p with
    mutexes := true
    nChunks := 1
    chunkSize := chunk
    instanceNo := no
    oldPoolSize := size
    currSize := chunk
    readAheadArea := min 64 (ut2PowerUp (chunk / 32))
    currPoolSize := chunk * c.pageSize }

/-- `buf_chunk_init` failed: `mem_free(buf_pool)`. -/
def Pool.fail (p : Pool) : Pool := { p with mutexes := true, nChunks := 1, freed := true }

def Pool.setHash (p : Pool) (locks : Nat) : Pool :=
  { p with pageHash := (2 * p.currSize, locks), zipHash := 2 * p.currSize }

/-- Part 2: the flushing fields and the temporary slots. -/
def Pool.setFlush (c : Config) (p : Pool) : Pool :=
  { p with flush := true, tmpSlots := c.nTmpSlots, tryLRUScan := true }

/-! ## The sequential `buf_pool_init` -/

/-- `buf_pool_init_instance` of the server tree: the call for instance `i`, on the pool `p`,
with the value of `srv_n_page_hash_locks` before and after. -/
def initInstance (c : Config) (i : Nat) (p : Pool) (size no locks : Nat) : DbErr × Pool × Nat :=
  if 0 < size then
    match c.bufChunkInit i size with
    | none => (.DB_ERROR, p.fail, locks)
    | some chunk =>
      let locks := ut2PowerUp locks
      (.DB_SUCCESS, ((p.setChunk c size no chunk).setHash locks).setFlush c, locks)
  else (.DB_SUCCESS, ({ p with mutexes := true }).setFlush c, locks)

/-- `buf_pool_free(i)`. -/
def bufPoolFree (pool : Nat → Pool) (i : Nat) : Nat → Pool :=
  fun j => if j < i then { pool j with freed := true } else pool j

/-- The loop from instance `i` on, with `k` instances left. -/
def seqLoop (c : Config) : Nat → Nat → (Nat → Pool) → Nat → DbErr × (Nat → Pool)
  | 0, _, pool, _ => (.DB_SUCCESS, pool)
  | k + 1, i, pool, locks =>
    match initInstance c i (pool i) c.size i locks with
    | (.DB_ERROR, p, _) => (.DB_ERROR, bufPoolFree (Function.update pool i p) i)
    | (.DB_SUCCESS, p, locks) => seqLoop c k (i + 1) (Function.update pool i p) locks

def sequential (c : Config) : DbErr × (Nat → Pool) :=
  seqLoop c c.nInstances 0 (fun _ => zeroed) c.nPageHashLocks

/-! ## The threaded `buf_pool_init` -/

inductive MainPc
  | setPool (i : Nat)
  | setSize (i : Nat)
  | setNo (i : Nat)
  | create (i : Nat)
  | join (i : Nat)
  | setSizes
  | returned (r : DbErr)
  deriving DecidableEq, Repr

inductive ThreadPc
  | notCreated
  | readPool
  | readSize
  | readNo
  | chunk
  | readLocks
  | writeLocks
  | hash
  | flush
  | abort
  | done (r : DbErr)
  deriving DecidableEq, Repr

/-- A thread: its local copy of the parameters, and the number of locks it has computed. -/
structure Thread where
  pc : ThreadPc
  param : Param
  locks : Nat
  deriving DecidableEq, Repr

/-- `inits` records, newest first, which thread finished initialising with which parameters. -/
structure St where
  mainPc : MainPc
  param : Param
  pool : Nat → Pool
  nPageHashLocks : Nat
  thr : Nat → Thread
  currPoolSize : Nat
  inits : List (Nat × Param)

inductive Act
  | main
  | thread (t : Nat)
  deriving DecidableEq, Repr

/-- The test `i < n_instances` of the creating loop. -/
def loopFrom (c : Config) (i : Nat) : MainPc := if i < c.nInstances then .setPool i else .join 0

/-- The test `i < n_instances` of the joining loop. -/
def joinFrom (c : Config) (i : Nat) : MainPc := if i < c.nInstances then .join i else .setSizes

/-- `buf_pool_set_sizes`. -/
def sumSizes (pool : Nat → Pool) : Nat → Nat
  | 0 => 0
  | i + 1 => sumSizes pool i + (pool i).currPoolSize

/-- A step of the creating thread.  `pthread_join` also stores the result of the thread where the
uninitialised `ret` points to: that is taken to harm nothing that is modelled.  After a
`pthread_create` that failed with a positive number the handle is the 0 of `mem_zalloc`, and the
join of such a handle is taken to return at once. -/
def mainStep (c : Config) (s : St) : Option St :=
  match s.mainPc with
  | .setPool i => some { s with mainPc := .setSize i, param := { s.param with bufPool := i } }
  | .setSize i => some { s with mainPc := .setNo i, param := { s.param with bufPoolSize := c.size } }
  | .setNo i => some { s with mainPc := .create i, param := { s.param with instanceNo := i } }
  | .create i =>
    if c.pthreadCreate i < 0 then some { s with mainPc := .returned .DB_ERROR }
    else if c.pthreadCreate i = 0 then
      some { s with
        mainPc := loopFrom c (i + 1)
        thr := Function.update s.thr i { s.thr i with pc := .readPool } }
    else some { s with mainPc := loopFrom c (i + 1) }
  | .join i =>
    match (s.thr i).pc with
    | .done _ => some { s with mainPc := joinFrom c (i + 1) }
    | .notCreated => some { s with mainPc := joinFrom c (i + 1) }
    | _ => none
  | .setSizes =>
    some { s with
      mainPc := .returned .DB_SUCCESS
      currPoolSize := sumSizes s.pool c.nInstances }
  | .returned _ => none

def St.setThr (s : St) (t : Nat) (l : Thread) : St := { s with thr := Function.update s.thr t l }

/-- Write to the pool of thread `t` and move on. -/
def St.setPool (s : St) (t : Nat) (p : Pool) (pc : ThreadPc) : St :=
  { s with
    pool := Function.update s.pool (s.thr t).param.bufPool p
    thr := Function.update s.thr t { s.thr t with pc := pc } }

/-- `buf_pool_init_instance` as a thread: a copy of each field of `param`, then the same parts as
the sequential one. -/
def threadStep (c : Config) (s : St) (t : Nat) : Option St :=
  let l := s.thr t
  let p := s.pool l.param.bufPool
  match l.pc with
  | .notCreated => none
  | .readPool =>
    some (s.setThr t { l with pc := .readSize, param := { l.param with bufPool := s.param.bufPool } })
  | .readSize =>
    some (s.setThr t
      { l with pc := .readNo, param := { l.param with bufPoolSize := s.param.bufPoolSize } })
  | .readNo =>
    some (s.setThr t
      { l with pc := .chunk, param := { l.param with instanceNo := s.param.instanceNo } })
  | .chunk =>
    if 0 < l.param.bufPoolSize then
      match c.bufChunkInit t l.param.bufPoolSize with
      | none => some (s.setPool t p.fail (.done .DB_ERROR))
      | some chunk =>
        some (s.setPool t (p.setChunk c l.param.bufPoolSize l.param.instanceNo chunk) .readLocks)
    else some (s.setPool t { p with mutexes := true } .flush)
  | .readLocks =>
    some (s.setThr t { l with pc := .writeLocks, locks := ut2PowerUp s.nPageHashLocks })
  | .writeLocks => some { s.setThr t { l with pc := .hash } with nPageHashLocks := l.locks }
  | .hash =>
    if s.nPageHashLocks ≠ 0 ∧ s.nPageHashLocks ≤ MAX_PAGE_HASH_LOCKS then
      some (s.setPool t (p.setHash s.nPageHashLocks) .flush)
    else some (s.setThr t { l with pc := .abort })
  | .flush =>
    some { s.setPool t (p.setFlush c) (.done .DB_SUCCESS) with inits := (t, l.param) :: s.inits }
  | .abort => none
  | .done _ => none

def step (c : Config) (s : St) : Act → Option St
  | .main => mainStep c s
  | .thread t => threadStep c s t

/-- Before the loop: zeroed pools, no thread.  `param` is not initialised: `junk` is what it
holds. -/
def initial (c : Config) (junk : Param) : St where
  mainPc := loopFrom c 0
  param := junk
  pool _ := zeroed
  nPageHashLocks := c.nPageHashLocks
  thr _ := ⟨.notCreated, junk, 0⟩
  currPoolSize := 0
  inits := []

def bufPoolInit (c : Config) (junk : Param) : Machine St Act where
  init := initial c junk
  step := step c

end MulticorePrac.BufPool
