import MulticorePrac.Lib.Machine
import MulticorePrac.ListSet.Spec

/-!
# Lab11: nodes, their mutexes and the threads

What the programs of Lab11 share.  The fields of the nodes are functions of the address;
`live` tells which addresses are allocated, and `owner` who has a node's mutex.  `hist` records
the calls and the returns.  The threads call one operation after another, as `ThreadFunc`
does; which ones is left open, and also which address `malloc` returns and what is in the
`next` field of the new node.
-/

namespace MulticorePrac.ListSet

structure State (τ : Type) where
  key : Nat → Int
  next : Nat → Nat
  owner : Nat → Option Nat
  live : Nat → Bool
  thread : Nat → τ
  hist : List (Event Op Bool)

inductive Act
  | call (t : Nat) (op : Op)
  | malloc (t addr junk : Nat)
  | run (t : Nat)
  deriving DecidableEq, Repr

def Op.needsNode : Op → Bool
  | .add _ => true
  | _ => false

variable {τ : Type}

def State.setThread (s : State τ) (t : Nat) (l : τ) : State τ :=
  { s with thread := Function.update s.thread t l }

/-- `pthread_mutex_lock` of the node `a`: not possible while another thread has it. -/
def State.lock (s : State τ) (t a : Nat) (l : τ) : Option (State τ) :=
  if s.owner a = none then
    some { s.setThread t l with owner := Function.update s.owner a (some t) }
  else none

def State.unlock (s : State τ) (t a : Nat) (l : τ) : State τ :=
  { s.setThread t l with owner := Function.update s.owner a none }

/-- The write `a->next = b`. -/
def State.write (s : State τ) (t a b : Nat) (l : τ) : State τ :=
  { s.setThread t l with next := Function.update s.next a b }

/-- `list_init`, with all threads in the state `l`.  It never initialises the mutexes of the head and
the tail; they are taken to be free and to work. -/
def listInit (l : τ) : State τ where
  key := Function.update (Function.update (fun _ => 0) HEAD INT_MIN) TAIL INT_MAX
  next := Function.update (Function.update (fun _ => NULL) HEAD TAIL) TAIL NULL
  owner := fun _ => none
  live := Function.update (Function.update (fun _ => false) HEAD true) TAIL true
  thread := fun _ => l
  hist := []

/-- The list is empty at the start. -/
theorem isPath_listInit (l : τ) : IsPath (listInit l).key [HEAD, TAIL] ∅ := by
  refine ⟨rfl, rfl, rfl, List.pairwise_pair.mpr ?_, fun k => ?_⟩
  · show rank _ HEAD < rank _ TAIL
    rw [rank_head, rank_of_ne (by decide)]
    show INT_MIN - 1 < INT_MAX
    decide
  · refine ⟨fun hk => absurd hk (Finset.notMem_empty k), ?_⟩
    rintro ⟨a, ha, h1, h2, -⟩
    rcases List.mem_cons.mp ha with rfl | ha
    · exact absurd rfl h1
    · exact absurd (List.mem_singleton.mp ha) h2

end MulticorePrac.ListSet
