import Mathlib.Order.Basic
import Mathlib.Order.Lattice
import Mathlib.Data.Nat.Basic

/-!
# Loops with a number of rounds

A loop whose end is not clear from its text gets a number of rounds and fails when they
are used up.  `Returns f x`: with enough rounds `f` gives `x`.  What is put together from
such computations returns if its parts do (`Returns.bind`).
-/

namespace MulticorePrac

variable {ε α β : Type} {f : Nat → Except ε α} {x y : α}

/-- With enough rounds the result is `x`. -/
def Returns (f : Nat → Except ε α) (x : α) : Prop := ∃ m, ∀ n, m ≤ n → f n = .ok x

theorem Returns.inj (hx : Returns f x) (hy : Returns f y) : x = y := by
  obtain ⟨m, hm⟩ := hx
  obtain ⟨k, hk⟩ := hy
  have h := (hm (max m k) (le_max_left m k)).symm.trans (hk (max m k) (le_max_right m k))
  exact Except.ok.inj h

/-- What needs no rounds. -/
theorem Returns.of_eq (h : ∀ n, f n = .ok x) : Returns f x := ⟨0, fun n _ => h n⟩

theorem Returns.bind {g : α → Nat → Except ε β} {z : β} (hf : Returns f x) (hg : Returns (g x) z) :
    Returns (fun n => f n >>= fun a => g a n) z := by
  obtain ⟨m, hm⟩ := hf
  obtain ⟨k, hk⟩ := hg
  refine ⟨max m k, fun n hn => ?_⟩
  show (f n >>= fun a => g a n) = _
  rw [hm n ((le_max_left m k).trans hn)]
  exact hk n ((le_max_right m k).trans hn)

end MulticorePrac
