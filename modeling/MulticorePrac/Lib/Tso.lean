import Mathlib.Data.List.Infix
import Mathlib.Logic.Function.Basic

/-!
# Store buffers

The memory model of x86 (total store order): every thread has a queue of stores that
have not reached the memory.  A store goes to the end of the thread's own queue
(`push`), a load sees the thread's newest queued store first (`load`), and at any time
the oldest store of a queue can reach the memory (`flush`).  A full fence waits until
the queue of its thread is empty.
-/

namespace MulticorePrac.Tso

variable {T L V : Type}

/-- The memory and the queues, with the oldest store first. -/
structure Store (T L V : Type) where
  mem : L → V
  buf : T → List (L × V)

/-- The newest store to `l` in a queue. -/
def newest [DecidableEq L] (l : L) : List (L × V) → Option V
  | [] => none
  | (k, v) :: b =>
    match newest l b with
    | some w => some w
    | none => if k = l then some v else none

namespace Store

def load [DecidableEq L] (m : Store T L V) (t : T) (l : L) : V := (newest l (m.buf t)).getD (m.mem l)

def push [DecidableEq T] (m : Store T L V) (t : T) (l : L) (v : V) : Store T L V :=
  { m with buf := Function.update m.buf t (m.buf t ++ [(l, v)]) }

def flush [DecidableEq T] [DecidableEq L] (m : Store T L V) (t : T) : Option (Store T L V) :=
  match m.buf t with
  | [] => none
  | (l, v) :: b => some ⟨Function.update m.mem l v, Function.update m.buf t b⟩

variable {m m' : Store T L V} {t u : T} {l : L} {v : V}

/-- With an empty queue a thread sees the memory. -/
theorem load_of_empty [DecidableEq L] (h : m.buf t = []) : m.load t l = m.mem l := by
  unfold load
  rw [h]
  rfl

section
variable [DecidableEq T]

theorem push_self : (m.push t l v).buf t = m.buf t ++ [(l, v)] := Function.update_self ..

theorem push_other (h : u ≠ t) : (m.push t l v).buf u = m.buf u := Function.update_of_ne h ..

/-- What a flush does. -/
theorem flush_cases [DecidableEq L] (h : m.flush t = some m') : ∃ l v b, m.buf t = (l, v) :: b ∧
    m'.mem = Function.update m.mem l v ∧ m'.buf t = b ∧ ∀ u, u ≠ t → m'.buf u = m.buf u := by
  unfold flush at h
  cases hb : m.buf t with
  | nil => rw [hb] at h; cases h
  | cons e b =>
    obtain ⟨l, v⟩ := e
    rw [hb] at h
    cases h
    exact ⟨l, v, b, rfl, rfl, Function.update_self .., fun u hu => Function.update_of_ne hu ..⟩

end

end Store

/-- A queue that is the end of `l` stays one when its oldest store leaves it. -/
theorem suffix_of_flush {e : L × V} {b l : List (L × V)} (h : e :: b <:+ l) : b <:+ l :=
  (List.suffix_cons e b).trans h

/-- A store goes to the end. -/
theorem suffix_push {b l : List (L × V)} (h : b <:+ l) (e : L × V) : b ++ [e] <:+ l ++ [e] := by
  obtain ⟨p, rfl⟩ := h
  exact ⟨p, by rw [List.append_assoc]⟩

end MulticorePrac.Tso
