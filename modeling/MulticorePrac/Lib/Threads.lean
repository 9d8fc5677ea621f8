import MulticorePrac.Lib.Machine
import Mathlib.Algebra.Order.BigOperators.Group.Finset
import Mathlib.Algebra.BigOperators.Group.Finset.Piecewise

/-!
# Threads, the locks they hold and what belongs to them

The state of the threads is a function `thread`; a step of thread `t` makes it `l`, so
that the threads are `Function.update thread t l`.  What a thread holds is read off its
state by `holds`.

* `forall_update`: what holds of every thread after a step.
* `Owned`: the owner of each lock is the thread that holds it; taking and giving back a
  lock keep it, and two threads do not hold the same lock.
* `Guarded`: the same for one mutex, which guards the sections of the threads' code.
* `Exclusive`: no two threads have the same thing.
* `tally`: how many of the threads are in a state of some kind.
* `forall_two`: two threads, named by `Bool`.
-/

namespace MulticorePrac

section
variable {τ : Type} {thread : Nat → τ} {t : Nat} {l : τ}

/-- A property of every thread, after thread `t` has become `l`. -/
theorem forall_update {P : Nat → τ → Prop} (hl : P t l) (hother : ∀ u, u ≠ t → P u (thread u))
    (u : Nat) : P u (Function.update thread t l u) := by
  by_cases hu : u = t
  · subst hu
    rw [Function.update_self]
    exact hl
  · rw [Function.update_of_ne hu]
    exact hother u hu

/-! ## Locks -/

variable (holds : τ → Nat → Prop)

/-- The owner of each lock is the thread that holds it. -/
def Owned (owner : Nat → Option Nat) (thread : Nat → τ) : Prop :=
  ∀ x t, owner x = some t ↔ holds (thread t) x

variable {holds} {owner : Nat → Option Nat} {x : Nat}

theorem Owned.inj (h : Owned holds owner thread) {u : Nat} (ht : holds (thread t) x)
    (hu : holds (thread u) x) : t = u := by
  have h1 := (h x t).mpr ht
  rw [(h x u).mpr hu] at h1
  exact (Option.some.inj h1).symm

/-- A step that keeps the locks. -/
theorem Owned.keep (h : Owned holds owner thread) (hl : ∀ y, holds l y ↔ holds (thread t) y) :
    Owned holds owner (Function.update thread t l) := by
  intro y u
  refine forall_update (P := fun u l => owner y = some u ↔ holds l y) ?_ (fun u _ => h y u) u
  exact (h y t).trans (hl y).symm

/-- Taking a free lock. -/
theorem Owned.lock (h : Owned holds owner thread) (hfree : owner x = none)
    (hl : ∀ y, holds l y ↔ holds (thread t) y ∨ y = x) :
    Owned holds (Function.update owner x (some t)) (Function.update thread t l) := by
  intro y u
  refine forall_update (P := fun u l => _ = some u ↔ holds l y) ?_ (fun u hu => ?_) u
  · rw [hl, ← h y t]
    by_cases hy : y = x
    · subst hy; simp
    · simp [hy]
  · rw [← h y u]
    by_cases hy : y = x
    · subst hy
      rw [Function.update_self, hfree]
      simp [Ne.symm hu]
    · rw [Function.update_of_ne hy]

/-- Giving back a lock that is held. -/
theorem Owned.unlock (h : Owned holds owner thread) (hx : holds (thread t) x)
    (hl : ∀ y, holds l y ↔ holds (thread t) y ∧ y ≠ x) :
    Owned holds (Function.update owner x none) (Function.update thread t l) := by
  intro y u
  refine forall_update (P := fun u l => _ = some u ↔ holds l y) ?_ (fun u hu => ?_) u
  · rw [hl, ← h y t]
    by_cases hy : y = x
    · subst hy; simp
    · simp [hy]
  · rw [← h y u]
    by_cases hy : y = x
    · subst hy
      rw [Function.update_self, (h y t).mpr hx]
      simp [Ne.symm hu]
    · rw [Function.update_of_ne hy]

/-- A lock that no one holds is free. -/
theorem Owned.free (h : Owned holds owner thread) (hx : ∀ u, ¬holds (thread u) x) :
    owner x = none := by
  by_contra hc
  obtain ⟨u, hu⟩ := Option.ne_none_iff_exists'.mp hc
  exact hx u ((h x u).mp hu)

/-! ## One mutex -/

variable (inside : τ → Prop)

/-- The owner of the mutex is the thread that is in a section it guards. -/
def Guarded (mutex : Option Nat) (thread : Nat → τ) : Prop :=
  ∀ t, mutex = some t ↔ inside (thread t)

variable {inside} {mutex : Option Nat}

theorem Guarded.inj (h : Guarded inside mutex thread) {u : Nat} (ht : inside (thread t))
    (hu : inside (thread u)) : t = u := by
  have h1 := (h t).mpr ht
  rw [(h u).mpr hu] at h1
  exact (Option.some.inj h1).symm

/-- A step that neither enters nor leaves a section. -/
theorem Guarded.keep (h : Guarded inside mutex thread) (hl : inside l ↔ inside (thread t)) :
    Guarded inside mutex (Function.update thread t l) :=
  forall_update (P := fun u l => mutex = some u ↔ inside l) ((h t).trans hl.symm) fun u _ => h u

theorem Guarded.lock (h : Guarded inside none thread) (hl : inside l) :
    Guarded inside (some t) (Function.update thread t l) := by
  refine forall_update (P := fun u l => some t = some u ↔ inside l) (by simp [hl]) fun u hu => ?_
  rw [← h u]
  simp [Ne.symm hu]

theorem Guarded.unlock (h : Guarded inside mutex thread) (ht : inside (thread t))
    (hl : ¬inside l) : Guarded inside none (Function.update thread t l) := by
  refine forall_update (P := fun u l => none = some u ↔ inside l) (by simp [hl]) fun u hu => ?_
  have hout : ¬inside (thread u) := fun hc => hu (h.inj hc ht)
  simp [hout]

/-! ## What belongs to one thread -/

variable (owns : τ → Nat → Prop)

/-- No two threads have the same thing. -/
def Exclusive (thread : Nat → τ) : Prop :=
  ∀ t u x, owns (thread t) x → owns (thread u) x → t = u

variable {owns}

theorem Exclusive.update (h : Exclusive owns thread)
    (hl : ∀ x u, owns l x → owns (thread u) x → u = t) :
    Exclusive owns (Function.update thread t l) := by
  intro u v x hu hv
  by_cases hut : u = t
  · by_cases hvt : v = t
    · rw [hut, hvt]
    · rw [hut, Function.update_self] at hu
      rw [Function.update_of_ne hvt] at hv
      exact absurd (hl x v hu hv) hvt
  · rw [Function.update_of_ne hut] at hu
    by_cases hvt : v = t
    · rw [hvt, Function.update_self] at hv
      exact absurd (hl x u hv hu) hut
    · rw [Function.update_of_ne hvt] at hv
      exact h u v x hu hv

/-- A step of a thread that gets nothing new. -/
theorem Exclusive.keep (h : Exclusive owns thread) (hl : ∀ x, owns l x → owns (thread t) x) :
    Exclusive owns (Function.update thread t l) :=
  h.update fun x u hx hu => h u t x hu (hl x hx)

end

/-! ## Counting threads -/

section
variable {τ : Type} (p : τ → Bool) (thread : Nat → τ)

/-- How many of the threads below `n` are in a state with `p`. -/
def tally (n : Nat) : Nat := ∑ u ∈ Finset.range n, (p (thread u)).toNat

variable {n t : Nat}

theorem tally_update (ht : t < n) (l : τ) :
    tally p (Function.update thread t l) n + (p (thread t)).toNat =
      tally p thread n + (p l).toNat :=
  Machine.sum_update (fun l => (p l).toNat) thread ht l

theorem tally_eq_card (n : Nat) :
    tally p thread n = ((Finset.range n).filter fun u => p (thread u) = true).card := by
  rw [Finset.card_filter]
  unfold tally
  refine Finset.sum_congr rfl fun u _ => ?_
  cases p (thread u) <;> rfl

theorem tally_le (n : Nat) : tally p thread n ≤ n := by
  have h : tally p thread n ≤ ∑ _u ∈ Finset.range n, 1 :=
    Finset.sum_le_sum fun u _ => Bool.toNat_le _
  simpa using h

/-- Every thread is counted with `p` or without it. -/
theorem tally_add_not (n : Nat) : tally p thread n + tally (fun l => !p l) thread n = n := by
  unfold tally
  rw [← Finset.sum_add_distrib]
  have h : ∀ u ∈ Finset.range n, (p (thread u)).toNat + (!p (thread u)).toNat = 1 := by
    intro u _
    cases p (thread u) <;> rfl
  rw [Finset.sum_congr rfl h]
  simp

variable {p thread}

theorem tally_eq_zero : tally p thread n = 0 ↔ ∀ t < n, p (thread t) = false := by
  unfold tally
  rw [Finset.sum_eq_zero_iff]
  refine forall_congr' fun t => ?_
  rw [Finset.mem_range]
  refine imp_congr_right fun _ => ?_
  cases p (thread t) <;> decide

end

/-! ## Two threads -/

theorem eq_or_eq_not (t u : Bool) : u = t ∨ u = !t := by
  cases t <;> cases u <;> decide

theorem forall_two {P : Bool → Prop} (t : Bool) (h : P t) (h' : P !t) : ∀ u, P u := by
  intro u
  rcases eq_or_eq_not t u with rfl | rfl
  · exact h
  · exact h'

end MulticorePrac
