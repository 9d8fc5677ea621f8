import Mathlib.Data.List.Basic

/-!
# Lab12: the bounded queue (`lfqueue.cc`), called by one thread

The two counters are `uint32_t`; the waiting loops read them in every round.  A loop gets
a number of rounds and fails with `spins` when they are used up, so a call returns if it
returns for some number; an access behind the array fails with `outOfBounds`.

`enqueue` counts up `prod_counter`, which it does not reduce modulo `capacity`, and then
waits for `cnsu_counter > prod_counter`.  On a fresh queue both counters are
`capacity - 1`, so that the first `enqueue` never returns (`enqueue_fresh`).
-/

namespace MulticorePrac.LfQueue

structure Queue (T : Type) where
  capacity : UInt32
  arr : List T
  cnsuCounter : UInt32
  prodCounter : UInt32

inductive Fault
  | spins
  | outOfBounds
  deriving DecidableEq, Repr

variable {T : Type}

/-- The constructor; `arr` is what `new T[capacity]` finds in the memory. -/
def lfqueue (capacity : UInt32) (arr : List T) : Queue T :=
  ⟨capacity, arr, capacity - 1, capacity - 1⟩

/-- `arr[i] = value`. -/
def Queue.store (q : Queue T) (i : UInt32) (value : T) : Except Fault (Queue T) :=
  if i.toNat < q.arr.length then .ok { q with arr := q.arr.set i.toNat value }
  else .error .outOfBounds

/-- `arr[i]`. -/
def Queue.load (q : Queue T) (i : UInt32) : Except Fault T :=
  match q.arr[i.toNat]? with
  | some value => .ok value
  | none => .error .outOfBounds

/-- The loop of `enqueue`. -/
def enqueueLoop (q : Queue T) (value : T) : Nat → Except Fault (Queue T)
  | 0 => .error .spins
  | rounds + 1 =>
    if q.cnsuCounter > q.prodCounter then q.store q.prodCounter value
    else enqueueLoop q value rounds

def enqueue (rounds : Nat) (q : Queue T) (value : T) : Except Fault (Queue T) :=
  let q := { q with prodCounter := q.prodCounter + 1 }
  let q := { q with cnsuCounter := q.cnsuCounter % q.capacity }
  enqueueLoop q value rounds

/-- The loop of `dequeue`. -/
def dequeueLoop (q : Queue T) : Nat → Except Fault T
  | 0 => .error .spins
  | rounds + 1 =>
    if q.prodCounter ≥ q.cnsuCounter then q.load q.cnsuCounter
    else dequeueLoop q rounds

def dequeue (rounds : Nat) (q : Queue T) : Except Fault (Queue T × T) :=
  let q := { q with cnsuCounter := q.cnsuCounter + 1 }
  let q := { q with cnsuCounter := q.cnsuCounter % q.capacity }
  match dequeueLoop q rounds with
  | .ok value => .ok (q, value)
  | .error e => .error e

inductive Call (T : Type)
  | enqueue (value : T)
  | dequeue
  deriving DecidableEq, Repr

/-- A history of calls, and the values that its `dequeue`s return. -/
def runCalls (rounds : Nat) (q : Queue T) : List (Call T) → Except Fault (List T)
  | [] => .ok []
  | .enqueue value :: calls =>
    match enqueue rounds q value with
    | .ok q' => runCalls rounds q' calls
    | .error e => .error e
  | .dequeue :: calls =>
    match dequeue rounds q with
    | .ok (q', value) =>
      match runCalls rounds q' calls with
      | .ok values => .ok (value :: values)
      | .error e => .error e
    | .error e => .error e

/-! ## A bounded queue, and what the calls do -/

/-- From `stored` elements on, their number stays between `0` and `capacity`. -/
def Valid (capacity : Nat) (stored : Nat) : List (Call T) → Prop
  | [] => True
  | .enqueue _ :: calls => stored < capacity ∧ Valid capacity (stored + 1) calls
  | .dequeue :: calls => 0 < stored ∧ Valid capacity (stored - 1) calls

/-- What a queue with the elements `stored` returns. -/
def fifo (stored : List T) : List (Call T) → List T
  | [] => []
  | .enqueue value :: calls => fifo (stored ++ [value]) calls
  | .dequeue :: calls =>
    match stored with
    | [] => []
    | value :: stored => value :: fifo stored calls

/-- All calls of the history return, access the array inside its bounds and return what a queue
returns. -/
def ServesFifo (q : Queue T) (calls : List (Call T)) : Prop :=
  ∃ rounds, runCalls rounds q calls = .ok (fifo [] calls)

theorem enqueueLoop_spins {q : Queue T} (h : q.cnsuCounter ≤ q.prodCounter) (value : T)
    (rounds : Nat) : enqueueLoop q value rounds = .error .spins := by
  induction rounds with
  | zero => rfl
  | succ rounds ih =>
    unfold enqueueLoop
    have hgt : ¬q.cnsuCounter > q.prodCounter := UInt32.not_lt.mpr h
    rw [if_neg hgt, ih]

/-- On a fresh queue the counters are `capacity` and `capacity - 1` when `enqueue` compares
them. -/
theorem enqueue_fresh {c : UInt32} (hc : 1 ≤ c.toNat) (arr : List T) (value : T) (rounds : Nat) :
    enqueue rounds (lfqueue c arr) value = .error .spins := by
  unfold enqueue
  apply enqueueLoop_spins
  show (c - 1) % c ≤ c - 1 + 1
  have hlt := c.toNat_lt
  have hsub : (c - 1).toNat = c.toNat - 1 :=
    UInt32.toNat_sub_of_le _ _ (UInt32.le_iff_toNat_le.mpr hc)
  rw [UInt32.le_iff_toNat_le, UInt32.toNat_mod, UInt32.toNat_add, hsub]
  have hone : (1 : UInt32).toNat = 1 := rfl
  rw [hone, Nat.mod_eq_of_lt (by omega), Nat.mod_eq_of_lt (by omega)]
  omega

/-- A fresh queue serves the empty history and no other one. -/
theorem servesFifo_iff {c : UInt32} (hc : 1 ≤ c.toNat) (arr : List T) {calls : List (Call T)}
    (hv : Valid c.toNat 0 calls) : ServesFifo (lfqueue c arr) calls ↔ calls = [] := by
  constructor
  · rintro ⟨rounds, hr⟩
    cases calls with
    | nil => rfl
    | cons call calls =>
      cases call with
      | enqueue value =>
        unfold runCalls at hr
        rw [enqueue_fresh hc] at hr
        cases hr
      | dequeue =>
        have hpos := hv.1
        omega
  · intro h
    subst h
    exact ⟨0, rfl⟩

/-- The history of `test_queue1`. -/
theorem servesFifo_iff_queue1 : Valid 10 0 [Call.enqueue (1 : Nat), .dequeue] ∧
    ¬ServesFifo (lfqueue 10 (List.replicate 10 0)) [Call.enqueue (1 : Nat), .dequeue] := by
  have hv : Valid 10 0 [Call.enqueue (1 : Nat), .dequeue] := by simp [Valid]
  refine ⟨hv, fun h => ?_⟩
  have hnil := (servesFifo_iff (c := 10) (by decide) (List.replicate 10 0) hv).mp h
  cases hnil

/-- One `enqueue` on a queue of capacity 1 spins for ever. -/
theorem enqueue_never_returns : Valid 1 0 [Call.enqueue (7 : Nat)] ∧
    ∀ rounds, runCalls rounds (lfqueue 1 [0]) [Call.enqueue (7 : Nat)] = .error .spins := by
  refine ⟨by simp [Valid], fun rounds => ?_⟩
  unfold runCalls
  rw [enqueue_fresh (by decide)]

end MulticorePrac.LfQueue
