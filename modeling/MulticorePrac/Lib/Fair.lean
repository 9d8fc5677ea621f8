import MulticorePrac.Lib.Machine

/-!
# Fair schedules

A schedule is an infinite sequence of actions; an action whose turn comes when it cannot
happen changes nothing, as for a thread that finds its mutex held.  A schedule is fair
when every action of a given set comes again and again.

* `roundRobin`: the actions of a list in turn are a fair schedule.
* `states`: the states along a schedule; they are reachable.
* `leadsTo`: the rule of helpful actions.  While the goal is not reached some action
  helps.  A step lowers the measure, or leaves the action helpful and no farther from
  lowering it; the helpful action itself comes nearer.  Then every fair schedule reaches
  the goal.
* `stepsFrom_le`: when the steps that are counted lower a measure and the others do not
  raise it, no run has more of them than the measure was.
-/

namespace MulticorePrac.Machine

variable {σ α : Type}

/-- Every action of `A` comes again and again. -/
def Fair (A : α → Prop) (f : Nat → α) : Prop := ∀ a, A a → ∀ k, ∃ m, k ≤ m ∧ f m = a

/-- The actions of a list in turn. -/
def roundRobin (a : α) (as : List α) (k : Nat) : α := (a :: as).getD (k % (as.length + 1)) a

theorem fair_roundRobin (a : α) (as : List α) : Fair (· ∈ a :: as) (roundRobin a as) := by
  intro b hb k
  obtain ⟨i, hi, hget⟩ := List.getElem_of_mem hb
  rw [List.length_cons] at hi
  refine ⟨i + (as.length + 1) * k, ?_, ?_⟩
  · rw [Nat.succ_mul]
    omega
  · show (a :: as).getD ((i + (as.length + 1) * k) % (as.length + 1)) a = b
    rw [Nat.add_mul_mod_self_left, Nat.mod_eq_of_lt hi, List.getD_eq_getElem?_getD,
      List.getElem?_eq_getElem (by rwa [List.length_cons]), Option.getD_some]
    exact hget

theorem Fair.mono {A B : α → Prop} {f : Nat → α} (h : Fair B f) (hAB : ∀ a, A a → B a) : Fair A f :=
  fun a ha => h a (hAB a ha)

variable (M : Machine σ α)

/-- An action that cannot happen changes nothing. -/
def attempt (s : σ) (a : α) : σ := (M.step s a).getD s

/-- The states along the schedule `f`. -/
def states (f : Nat → α) : Nat → σ
  | 0 => M.init
  | k + 1 => M.attempt (states f k) (f k)

variable {M}

theorem attempt_of_step {s s' : σ} {a : α} (h : M.step s a = some s') : M.attempt s a = s' := by
  rw [attempt, h]
  rfl

theorem attempt_of_none {s : σ} {a : α} (h : M.step s a = none) : M.attempt s a = s := by
  rw [attempt, h]
  rfl

/-- What a step keeps, an attempt keeps. -/
theorem attempt_ind {P : σ → Prop} {s : σ} (a : α) (hs : P s)
    (hstep : ∀ s', M.step s a = some s' → P s') : P (M.attempt s a) := by
  cases h : M.step s a with
  | none => rwa [attempt_of_none h]
  | some s' => rw [attempt_of_step h]; exact hstep s' h

theorem reachable_states (f : Nat → α) (k : Nat) : M.Reachable (M.states f k) := by
  induction k with
  | zero => exact Reachable.init M
  | succ k ih => exact attempt_ind (f k) ih fun s' hs => ih.step M hs

/-- **The rule of helpful actions.**  `μ` is the measure, `ρ` says how far a helpful action is from
lowering it. -/
theorem leadsTo {A : α → Prop} {f : Nat → α} (hf : Fair A f) (I F : σ → Prop)
    (H : σ → α → Prop) (μ : σ → Nat) (ρ : σ → α → Nat)
    (hinv : ∀ s b s', I s → ¬F s → M.step s b = some s' → I s')
    (hhelp : ∀ s, I s → ¬F s → ∃ a, A a ∧ H s a)
    (hable : ∀ s a, I s → ¬F s → H s a → ∃ s', M.step s a = some s')
    (hstep : ∀ s a b s', I s → ¬F s → H s a → M.step s b = some s' →
      μ s' < μ s ∨ (μ s' ≤ μ s ∧ H s' a ∧ ρ s' a ≤ ρ s a ∧ (b = a → ρ s' a < ρ s a)))
    (k : Nat) (hk : I (M.states f k)) : ∃ j, k ≤ j ∧ F (M.states f j) := by
  by_contra hno
  have hnot : ∀ j, k ≤ j → ¬F (M.states f j) := fun j hj hF => hno ⟨j, hj, hF⟩
  have hI : ∀ j, k ≤ j → I (M.states f j) := by
    intro j hj
    induction j, hj using Nat.le_induction with
    | base => exact hk
    | succ j hj ih => exact attempt_ind (f j) ih fun s' hs => hinv _ _ s' ih (hnot j hj) hs
  -- the helpful action stays helpful until its turn, or the measure drops before
  have hwalk : ∀ a d j, k ≤ j → f (j + d) = a → H (M.states f j) a → ∃ j', j ≤ j' ∧
      (μ (M.states f j') < μ (M.states f j) ∨ (μ (M.states f j') ≤ μ (M.states f j) ∧
        H (M.states f j') a ∧ ρ (M.states f j') a < ρ (M.states f j) a)) := by
    intro a d
    induction d with
    | zero =>
      intro j hj hfa hH
      obtain ⟨s', hs⟩ := hable _ a (hI j hj) (hnot j hj) hH
      have hs' : M.states f (j + 1) = s' := by
        show M.attempt _ (f j) = s'
        rw [show f j = a from hfa]
        exact attempt_of_step hs
      refine ⟨j + 1, Nat.le_succ j, ?_⟩
      rw [hs']
      exact (hstep _ a a s' (hI j hj) (hnot j hj) hH hs).imp_right
        fun h => ⟨h.1, h.2.1, h.2.2.2 rfl⟩
    | succ d ih =>
      intro j hj hfa hH
      have hfa' : f (j + 1 + d) = a := by rw [← hfa]; congr 1; omega
      have hnext : μ (M.states f (j + 1)) < μ (M.states f j) ∨
          (μ (M.states f (j + 1)) ≤ μ (M.states f j) ∧ H (M.states f (j + 1)) a ∧
            ρ (M.states f (j + 1)) a ≤ ρ (M.states f j) a) := by
        refine attempt_ind (P := fun t => μ t < μ (M.states f j) ∨ (μ t ≤ μ (M.states f j) ∧
          H t a ∧ ρ t a ≤ ρ (M.states f j) a)) (f j) ?_ fun s' hs => ?_
        · exact Or.inr ⟨Nat.le_refl _, hH, Nat.le_refl _⟩
        · exact (hstep _ a (f j) s' (hI j hj) (hnot j hj) hH hs).imp_right
            fun h => ⟨h.1, h.2.1, h.2.2.1⟩
      rcases hnext with hlt | ⟨hle, hH', hρ⟩
      · exact ⟨j + 1, Nat.le_succ j, Or.inl hlt⟩
      · obtain ⟨j', hj', h⟩ := ih (j + 1) (Nat.le_succ_of_le hj) hfa' hH'
        refine ⟨j', by omega, ?_⟩
        rcases h with h | ⟨h1, h2, h3⟩
        · exact Or.inl (by omega)
        · exact Or.inr ⟨by omega, h2, by omega⟩
  -- it lowers the measure after finitely many turns
  have hlower : ∀ a r j, A a → k ≤ j → H (M.states f j) a → ρ (M.states f j) a = r →
      ∃ j', j ≤ j' ∧ μ (M.states f j') < μ (M.states f j) := by
    intro a r
    induction r using Nat.strong_induction_on with
    | _ r ih =>
      intro j ha hj hH hr
      obtain ⟨m, hm, hfm⟩ := hf a ha j
      have hturn : f (j + (m - j)) = a := by rw [← hfm]; congr 1; omega
      obtain ⟨j', hj', h | ⟨hle, hH', hlt⟩⟩ := hwalk a (m - j) j hj hturn hH
      · exact ⟨j', hj', h⟩
      · obtain ⟨j'', hj'', h⟩ := ih _ (hr ▸ hlt) j' ha (by omega) hH' rfl
        exact ⟨j'', by omega, by omega⟩
  have hnever : ∀ m j, k ≤ j → μ (M.states f j) ≠ m := by
    intro m
    induction m using Nat.strong_induction_on with
    | _ m ih =>
      intro j hj hm
      obtain ⟨a, ha, hH⟩ := hhelp _ (hI j hj) (hnot j hj)
      obtain ⟨j', hj', hlt⟩ := hlower a _ j ha hj hH rfl
      exact ih _ (hm ▸ hlt) j' (by omega) rfl
  exact hnever _ k (Nat.le_refl _) rfl

/-- How many steps of a run satisfy `Q`. -/
def stepsFrom (M : Machine σ α) (Q : σ → α → Prop) [∀ s a, Decidable (Q s a)] : σ → List α → Nat
  | _, [] => 0
  | s, a :: as => (if Q s a then 1 else 0) + ((M.step s a).elim 0 fun s' => stepsFrom M Q s' as)

theorem stepsFrom_le {Q : σ → α → Prop} [∀ s a, Decidable (Q s a)] (I : σ → Prop) (μ : σ → Nat)
    (hstep : ∀ s a s', I s → M.step s a = some s' →
      I s' ∧ μ s' + (if Q s a then 1 else 0) ≤ μ s) {s t : σ} {as : List α} (hs : I s)
    (hr : M.runFrom s as = some t) : M.stepsFrom Q s as + μ t ≤ μ s := by
  induction as generalizing s with
  | nil =>
    cases hr
    exact Nat.le_of_eq (Nat.zero_add _)
  | cons a as ih =>
    obtain ⟨s', ha, hr'⟩ := (runFrom_cons M).mp hr
    obtain ⟨hs', hle⟩ := hstep s a s' hs ha
    have hrest := ih hs' hr'
    rw [stepsFrom, ha, Option.elim_some]
    omega

end MulticorePrac.Machine
