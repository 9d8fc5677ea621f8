import Mathlib.Data.Nat.Basic
import Mathlib.Data.List.Basic
import Mathlib.Algebra.BigOperators.Group.Finset.Basic

/-!
# Machines: every interleaving of atomic steps

A `Machine` is a start state and a partial step function.  An action names the
party that moves and the outcome of its free choices, so the list of actions of
a run is its schedule; `step s a = none` means that `a` cannot happen in `s`.

* `invariant`: what holds at the start and is kept by every step holds in every
  reachable state; `invariantOn` is the same over the runs whose steps all meet
  a condition on the state before the step.
* `simulateOn`: if the kept actions are matched and the others are not seen by
  the relation, a run is related to the run with the others removed.
* `reaches_of_measure`: with a measure that every step decreases, a run can be
  continued to a final state, and no run is longer than the measure
  (`length_le_measure`); `reaches_by` is for runs whose steps are chosen, and
  `sum_update` for measures that add up the parties.
* `allSteps_or`: what a step that breaks a condition leaves behind for good.
-/

namespace MulticorePrac

/-- A start state and a partial step function. -/
structure Machine (σ α : Type) where
  init : σ
  step : σ → α → Option σ

namespace Machine

variable {σ α : Type} (M : Machine σ α)

/-- Take the actions in order; `none` if one of them cannot happen. -/
def runFrom : σ → List α → Option σ
  | s, [] => some s
  | s, a :: as =>
    match M.step s a with
    | some s' => runFrom s' as
    | none => none

def run (as : List α) : Option σ := M.runFrom M.init as

def Reachable (s : σ) : Prop := ∃ as, M.run as = some s

/-- Every step that the schedule takes from `s` meets `P` in the state before it. -/
def AllSteps (P : σ → α → Prop) : σ → List α → Prop
  | _, [] => True
  | s, a :: as => P s a ∧ ∀ s', M.step s a = some s' → AllSteps P s' as

instance decidableAllSteps (P : σ → α → Prop) [∀ s a, Decidable (P s a)] :
    ∀ (s : σ) (as : List α), Decidable (M.AllSteps P s as)
  | _, [] => isTrue trivial
  | s, a :: as =>
    match h : M.step s a with
    | none => decidable_of_iff (P s a) (by simp [AllSteps, h])
    | some t =>
      haveI := decidableAllSteps P t as
      decidable_of_iff (P s a ∧ M.AllSteps P t as) (by simp [AllSteps, h])

theorem runFrom_cons {s s' : σ} {a : α} {as : List α} :
    M.runFrom s (a :: as) = some s' ↔ ∃ t, M.step s a = some t ∧ M.runFrom t as = some s' := by
  cases h : M.step s a with
  | none => simp [runFrom, h]
  | some t => simp [runFrom, h]

theorem runFrom_append {s s' : σ} {as bs : List α} :
    M.runFrom s (as ++ bs) = some s' ↔
      ∃ t, M.runFrom s as = some t ∧ M.runFrom t bs = some s' := by
  induction as generalizing s with
  | nil => simp [runFrom]
  | cons a as ih =>
    rw [List.cons_append, runFrom_cons]
    constructor
    · rintro ⟨t, h1, h2⟩
      obtain ⟨u, h3, h4⟩ := ih.mp h2
      exact ⟨u, M.runFrom_cons.mpr ⟨t, h1, h3⟩, h4⟩
    · rintro ⟨u, h1, h2⟩
      obtain ⟨t, h3, h4⟩ := M.runFrom_cons.mp h1
      exact ⟨t, h3, ih.mpr ⟨u, h4, h2⟩⟩

theorem Reachable.init : M.Reachable M.init := ⟨[], rfl⟩

theorem Reachable.runFrom {s s' : σ} {as : List α} (h : M.Reachable s)
    (hr : M.runFrom s as = some s') : M.Reachable s' := by
  obtain ⟨bs, hb⟩ := h
  exact ⟨bs ++ as, M.runFrom_append.mpr ⟨s, hb, hr⟩⟩

theorem Reachable.step {s s' : σ} {a : α} (h : M.Reachable s) (hs : M.step s a = some s') :
    M.Reachable s' := by
  have hr : M.runFrom s [a] = some s' := M.runFrom_cons.mpr ⟨s', hs, rfl⟩
  exact h.runFrom M hr

/-! ## Invariants -/

/-- What every step that meets `P` keeps is kept by a run of such steps. -/
theorem invariantFrom (P : σ → α → Prop) (I : σ → Prop)
    (hstep : ∀ s a s', I s → P s a → M.step s a = some s' → I s') :
    ∀ (as : List α) (s s' : σ), I s → M.AllSteps P s as → M.runFrom s as = some s' → I s' := by
  intro as
  induction as with
  | nil =>
    intro s s' hi _ hr
    cases hr
    exact hi
  | cons a as ih =>
    intro s s' hi hp hr
    obtain ⟨t, h1, h2⟩ := M.runFrom_cons.mp hr
    exact ih t s' (hstep s a t hi hp.1 h1) (hp.2 t h1) h2

theorem invariantOn (P : σ → α → Prop) (I : σ → Prop) (hinit : I M.init)
    (hstep : ∀ s a s', I s → P s a → M.step s a = some s' → I s')
    {as : List α} {s : σ} (hp : M.AllSteps P M.init as) (hr : M.run as = some s) : I s :=
  M.invariantFrom P I hstep as M.init s hinit hp hr

theorem allSteps_of_forall {P : σ → α → Prop} (h : ∀ s a, P s a) :
    ∀ (as : List α) (s : σ), M.AllSteps P s as := by
  intro as
  induction as with
  | nil => intro s; trivial
  | cons a as ih => intro s; exact ⟨h s a, fun s' _ => ih s'⟩

theorem AllSteps.imp {P Q : σ → α → Prop} (h : ∀ s a, P s a → Q s a) :
    ∀ (as : List α) (s : σ), M.AllSteps P s as → M.AllSteps Q s as := by
  intro as
  induction as with
  | nil => intro s _; trivial
  | cons a as ih => intro s hp; exact ⟨h s a hp.1, fun s' hs => ih s' (hp.2 s' hs)⟩

theorem invariant (I : σ → Prop) (hinit : I M.init)
    (hstep : ∀ s a s', I s → M.step s a = some s' → I s') {s : σ} (hs : M.Reachable s) : I s := by
  obtain ⟨as, hr⟩ := hs
  exact M.invariantOn (fun _ _ => True) I hinit (fun s a s' hi _ => hstep s a s' hi)
    (M.allSteps_of_forall (fun _ _ => trivial) as M.init) hr

/-! ## Removing the actions of one party -/

/-- A run whose steps meet `P` is related to the run without the actions that `keep` rejects,
when each kept action is matched and each rejected one leaves the related state related. -/
theorem simulateOn (P : σ → α → Prop) (keep : α → Bool) (R : σ → σ → Prop)
    (hinit : R M.init M.init)
    (hkeep : ∀ s t a s', keep a = true → R s t → P s a → M.step s a = some s' →
      ∃ t', M.step t a = some t' ∧ R s' t')
    (hdrop : ∀ s t a s', keep a = false → R s t → P s a → M.step s a = some s' → R s' t)
    {as : List α} {s : σ} (hp : M.AllSteps P M.init as) (hr : M.run as = some s) :
    ∃ t, M.run (as.filter keep) = some t ∧ R s t := by
  have key : ∀ (as : List α) (s t s' : σ), R s t → M.AllSteps P s as → M.runFrom s as = some s' →
      ∃ t', M.runFrom t (as.filter keep) = some t' ∧ R s' t' := by
    intro as
    induction as with
    | nil =>
      intro s t s' hR _ hr
      cases hr
      exact ⟨t, rfl, hR⟩
    | cons a as ih =>
      intro s t s' hR hp hr
      obtain ⟨u, h1, h2⟩ := M.runFrom_cons.mp hr
      cases hk : keep a with
      | true =>
        obtain ⟨v, h3, h4⟩ := hkeep s t a u hk hR hp.1 h1
        obtain ⟨w, h5, h6⟩ := ih u v s' h4 (hp.2 u h1) h2
        refine ⟨w, ?_, h6⟩
        rw [List.filter_cons_of_pos hk]
        exact M.runFrom_cons.mpr ⟨v, h3, h5⟩
      | false =>
        obtain ⟨w, h5, h6⟩ := ih u t s' (hdrop s t a u hk hR hp.1 h1) (hp.2 u h1) h2
        refine ⟨w, ?_, h6⟩
        rw [List.filter_cons_of_neg (by simp [hk])]
        exact h5
  exact key as M.init M.init s hinit hp hr

/-! ## Termination -/

open Finset in
/-- One party moves: the sum over the parties changes by its part. -/
theorem sum_update {β : Type} (m : β → Nat) (f : Nat → β) {n t : Nat} (ht : t < n) (l : β) :
    ∑ u ∈ range n, m (Function.update f t l u) + m (f t) = ∑ u ∈ range n, m (f u) + m l := by
  have hmem : t ∈ range n := mem_range.mpr ht
  rw [← add_sum_erase _ _ hmem, ← add_sum_erase (range n) (fun u => m (f u)) hmem]
  have hrest : ∑ u ∈ (range n).erase t, m (Function.update f t l u) =
      ∑ u ∈ (range n).erase t, m (f u) := by
    apply sum_congr rfl
    intro u hu
    rw [Function.update_of_ne (ne_of_mem_erase hu)]
  rw [hrest, Function.update_self]
  omega

open Finset in
/-- Only `t` counts for something else. -/
theorem sum_of_ne {f g : Nat → Nat} {n t : Nat} (ht : t < n) (hrest : ∀ u, u ≠ t → f u = g u) :
    ∑ u ∈ range n, f u + g t = ∑ u ∈ range n, g u + f t := by
  have hmem : t ∈ range n := mem_range.mpr ht
  have hsame : ∑ u ∈ (range n).erase t, f u = ∑ u ∈ (range n).erase t, g u :=
    sum_congr rfl fun u hu => hrest u (ne_of_mem_erase hu)
  rw [← add_sum_erase _ f hmem, ← add_sum_erase _ g hmem, hsame]
  omega

open Finset in
/-- Two parties move, and together come down. -/
theorem sum_lt_of_pair {f g : Nat → Nat} {n t u : Nat} (ht : t < n) (hu : u < n) (htu : t ≠ u)
    (hrest : ∀ v, v ≠ t → v ≠ u → f v = g v) (hlt : f t + f u < g t + g u) :
    ∑ v ∈ range n, f v < ∑ v ∈ range n, g v := by
  have hmt : t ∈ range n := mem_range.mpr ht
  have hmu : u ∈ (range n).erase t := mem_erase.mpr ⟨htu.symm, mem_range.mpr hu⟩
  rw [← add_sum_erase _ _ hmt, ← add_sum_erase _ f hmu, ← add_sum_erase (range n) g hmt,
    ← add_sum_erase _ g hmu]
  have hsame : ∑ v ∈ ((range n).erase t).erase u, f v = ∑ v ∈ ((range n).erase t).erase u, g v := by
    apply sum_congr rfl
    intro v hv
    exact hrest v (ne_of_mem_erase (mem_of_mem_erase hv)) (ne_of_mem_erase hv)
  rw [hsame]
  omega

/-- When every state that is not final has a step that keeps `I` and lowers the measure, a run of
such steps leads to a final state. -/
theorem reaches_by (I F : σ → Prop) (μ : σ → Nat)
    (hnext : ∀ s, I s → ¬ F s → ∃ a s', M.step s a = some s' ∧ I s' ∧ μ s' < μ s) :
    ∀ s, I s → ∃ as s', M.runFrom s as = some s' ∧ I s' ∧ F s' := by
  have key : ∀ (m : Nat) (s : σ), μ s ≤ m → I s →
      ∃ as s', M.runFrom s as = some s' ∧ I s' ∧ F s' := by
    intro m
    induction m with
    | zero =>
      intro s hm hi
      by_cases hf : F s
      · exact ⟨[], s, rfl, hi, hf⟩
      · obtain ⟨a, s', -, -, hlt⟩ := hnext s hi hf
        omega
    | succ m ih =>
      intro s hm hi
      by_cases hf : F s
      · exact ⟨[], s, rfl, hi, hf⟩
      · obtain ⟨a, s', hs, hi', hlt⟩ := hnext s hi hf
        obtain ⟨as, u, hr, hu⟩ := ih s' (by omega) hi'
        exact ⟨a :: as, u, M.runFrom_cons.mpr ⟨s', hs, hr⟩, hu⟩
  intro s hi
  exact key (μ s) s (Nat.le_refl _) hi

/-- With a measure that drops and no stuck state but the final ones, a run can always be
continued to a final state. -/
theorem reaches_of_measure (I F : σ → Prop) (μ : σ → Nat)
    (hstep : ∀ s a s', I s → M.step s a = some s' → I s' ∧ μ s' < μ s)
    (hprog : ∀ s, I s → ¬ F s → ∃ a s', M.step s a = some s') :
    ∀ s, I s → ∃ as s', M.runFrom s as = some s' ∧ F s' := by
  intro s hi
  obtain ⟨as, s', hr, -, hf⟩ := M.reaches_by I F μ (fun s hi hf => by
    obtain ⟨a, s', hs⟩ := hprog s hi hf
    exact ⟨a, s', hs, hstep s a s' hi hs⟩) s hi
  exact ⟨as, s', hr, hf⟩

/-- A measure that every step lowers bounds the length of the runs. -/
theorem length_le_measure (I : σ → Prop) (μ : σ → Nat)
    (hstep : ∀ s a s', I s → M.step s a = some s' → I s' ∧ μ s' < μ s) :
    ∀ (as : List α) (s s' : σ), I s → M.runFrom s as = some s' → as.length ≤ μ s := by
  intro as
  induction as with
  | nil => intro s s' _ _; exact Nat.zero_le _
  | cons a as ih =>
    intro s s' hi hr
    obtain ⟨t, h1, h2⟩ := M.runFrom_cons.mp hr
    obtain ⟨hi', hlt⟩ := hstep s a t hi h1
    have := ih t s' hi' h2
    rw [List.length_cons]
    omega

/-- A run that makes `P` true has a step that does. -/
theorem enters (P : σ → Prop) : ∀ (as : List α) (s s' : σ), ¬P s → P s' →
    M.runFrom s as = some s' → ∃ bs a cs u v, M.runFrom s bs = some u ∧ ¬P u ∧
      M.step u a = some v ∧ P v ∧ M.runFrom v cs = some s' := by
  intro as
  induction as with
  | nil =>
    intro s s' hn hp hr
    cases hr
    exact absurd hp hn
  | cons a as ih =>
    intro s s' hn hp hr
    obtain ⟨t, h1, h2⟩ := M.runFrom_cons.mp hr
    by_cases ht : P t
    · exact ⟨[], a, as, s, t, rfl, hn, h1, ht, h2⟩
    · obtain ⟨bs, b, cs, u, v, hu, hrest⟩ := ih t s' ht hp h2
      exact ⟨a :: bs, b, cs, u, v, M.runFrom_cons.mpr ⟨t, h1, hu⟩, hrest⟩

/-- An action that can be taken again and again, `k` counting how often. -/
theorem repeats (I : Nat → σ → Prop) (a : α)
    (hnext : ∀ k s, I k s → ∃ s', M.step s a = some s' ∧ I (k + 1) s') :
    ∀ n k s, I k s → ∃ s', M.runFrom s (List.replicate n a) = some s' ∧ I (k + n) s' := by
  intro n
  induction n with
  | zero => intro k s hi; exact ⟨s, rfl, hi⟩
  | succ n ih =>
    intro k s hi
    obtain ⟨t, hs, ht⟩ := hnext k s hi
    obtain ⟨s', hr, hs'⟩ := ih (k + 1) t ht
    refine ⟨s', M.runFrom_cons.mpr ⟨t, hs, hr⟩, ?_⟩
    rw [show k + (n + 1) = k + 1 + n by omega]
    exact hs'

/-! ## Runs that break a condition -/

/-- When a step that breaks `P` makes `B` true, and `B` stays true, a run meets `P` at all its
steps or ends with `B`. -/
theorem allSteps_or (I : σ → Prop) (P : σ → α → Prop) (B : σ → Prop)
    (hI : ∀ s a s', I s → M.step s a = some s' → I s')
    (hbreak : ∀ s a s', I s → ¬ P s a → M.step s a = some s' → B s')
    (hkeep : ∀ s a s', I s → B s → M.step s a = some s' → B s') :
    ∀ (as : List α) (s s' : σ), I s → M.runFrom s as = some s' → M.AllSteps P s as ∨ B s' := by
  have hstay : ∀ (as : List α) (s s' : σ), I s → B s → M.runFrom s as = some s' → B s' := by
    intro as
    induction as with
    | nil => intro s s' _ hb hr; cases hr; exact hb
    | cons a as ih =>
      intro s s' hi hb hr
      obtain ⟨t, h1, h2⟩ := M.runFrom_cons.mp hr
      exact ih t s' (hI s a t hi h1) (hkeep s a t hi hb h1) h2
  intro as
  induction as with
  | nil => intro s s' _ _; exact Or.inl trivial
  | cons a as ih =>
    intro s s' hi hr
    obtain ⟨t, h1, h2⟩ := M.runFrom_cons.mp hr
    by_cases hp : P s a
    · rcases ih t s' (hI s a t hi h1) h2 with h | h
      · refine Or.inl ⟨hp, fun u hu => ?_⟩
        rw [h1] at hu
        cases hu
        exact h
      · exact Or.inr h
    · exact Or.inr (hstay as t s' (hI s a t hi h1) (hbreak s a t hi hp h1) h2)

end Machine

end MulticorePrac
