import MulticorePrac.Lib.Threads
import Mathlib.Logic.Relation

/-!
# Locks that are taken in ascending order

A thread waits for a lock that it `wants` and another one owns.  When every thread wants a
lock of a higher rank than all those it holds (`LockOrder`), the threads that wait for each
other want locks of higher and higher ranks: there is no cycle among them
(`LockOrder.acyclic`), and with a bound on the ranks that are wanted, whoever waits does so in
the end for a thread that does not wait (`LockOrder.exists_free`).
-/

namespace MulticorePrac

open Relation

section
variable {τ : Type} (wants : τ → Option Nat) (holds : τ → Nat → Prop) (owner : Nat → Option Nat)
  (thread : Nat → τ)

/-- Thread `t` is to take a lock that thread `u` has. -/
def WaitsFor (t u : Nat) : Prop := ∃ x, wants (thread t) = some x ∧ owner x = some u

structure LockOrder (rank : Nat → Int) (bound : Int) : Prop where
  lt : ∀ t x y, wants (thread t) = some x → holds (thread t) y → rank y < rank x
  le : ∀ t x, wants (thread t) = some x → rank x ≤ bound

variable {wants holds owner thread} {rank : Nat → Int} {bound : Int}

namespace LockOrder

theorem of_wants (h : ∀ t x, wants (thread t) = some x →
    (∀ y, holds (thread t) y → rank y < rank x) ∧ rank x ≤ bound) :
    LockOrder wants holds thread rank bound :=
  ⟨fun t x y hx hy => (h t x hx).1 y hy, fun t x hx => (h t x hx).2⟩

/-- Who is waited for and waits itself wants a lock of a higher rank. -/
theorem lt_of_waitsFor (h : LockOrder wants holds thread rank bound)
    (ho : Owned holds owner thread) {t u x y : Nat} (hw : WaitsFor wants owner thread t u)
    (hx : wants (thread t) = some x) (hy : wants (thread u) = some y) : rank x < rank y := by
  obtain ⟨z, hz, hzu⟩ := hw
  rw [hx] at hz
  cases hz
  exact h.lt u y x hy ((ho x u).mp hzu)

theorem lt_of_transGen (h : LockOrder wants holds thread rank bound)
    (ho : Owned holds owner thread) {t u x y : Nat}
    (hw : TransGen (WaitsFor wants owner thread) t u) (hx : wants (thread t) = some x)
    (hy : wants (thread u) = some y) : rank x < rank y := by
  induction hw generalizing y with
  | single hw => exact h.lt_of_waitsFor ho hw hx hy
  | tail _ hw ih =>
    obtain ⟨z, hz, hzu⟩ := hw
    have h1 : rank x < rank z := ih hz
    have h2 : rank z < rank y := h.lt_of_waitsFor ho ⟨z, hz, hzu⟩ hz hy
    omega

/-- No thread waits for itself through others. -/
theorem acyclic (h : LockOrder wants holds thread rank bound) (ho : Owned holds owner thread)
    (t : Nat) : ¬TransGen (WaitsFor wants owner thread) t t := by
  intro hc
  obtain ⟨x, hx⟩ : ∃ x, wants (thread t) = some x := by
    obtain ⟨u, ⟨x, hx, -⟩, -⟩ := TransGen.head'_iff.mp hc
    exact ⟨x, hx⟩
  exact lt_irrefl _ (h.lt_of_transGen ho hc hx hx)

/-- From every thread the waiting leads to one that does not wait: the thread itself, or one that
holds a lock. -/
theorem exists_free (h : LockOrder wants holds thread rank bound) (ho : Owned holds owner thread)
    (t : Nat) : ∃ u, (u = t ∨ ∃ x, holds (thread u) x) ∧
      ∀ v, ¬WaitsFor wants owner thread u v := by
  -- by induction on how far the rank that is wanted is below the bound
  have key : ∀ (m : Nat) (t x : Nat), wants (thread t) = some x → (bound - rank x).toNat < m →
      ∃ u, (u = t ∨ ∃ x, holds (thread u) x) ∧ ∀ v, ¬WaitsFor wants owner thread u v := by
    intro m
    induction m with
    | zero =>
      intro t x hx hm
      omega
    | succ m ih =>
      intro t x hx hm
      by_cases hw : ∃ u, WaitsFor wants owner thread t u
      · obtain ⟨u, hu⟩ := hw
        obtain ⟨z, hz, hzu⟩ := id hu
        have hheld : holds (thread u) z := (ho z u).mp hzu
        cases hy : wants (thread u) with
        | none =>
          refine ⟨u, Or.inr ⟨z, hheld⟩, fun v ⟨y, hy', _⟩ => ?_⟩
          rw [hy] at hy'
          cases hy'
        | some y =>
          have hlt := h.lt_of_waitsFor ho hu hx hy
          have hle := h.le u y hy
          obtain ⟨v, hv, hfree⟩ := ih u y hy (by omega)
          refine ⟨v, Or.inr ?_, hfree⟩
          rcases hv with rfl | hv
          · exact ⟨z, hheld⟩
          · exact hv
      · exact ⟨t, Or.inl rfl, fun v hv => hw ⟨v, hv⟩⟩
  cases hx : wants (thread t) with
  | none =>
    refine ⟨t, Or.inl rfl, fun v ⟨x, hx', _⟩ => ?_⟩
    rw [hx] at hx'
    cases hx'
  | some x => exact key _ t x hx (Nat.lt_succ_self _)

end LockOrder

end

end MulticorePrac
