import MulticorePrac.Lib.Machine

/-!
# Atomic objects and linearizability

An `Object` is a sequential data type.  Threads call its operations one after
another; the call and the return of each operation are the events of a history,
named by the thread and the index of the call.  A history is `Linearizable` when
its completed operations, with some of the pending ones, can be put in one order
in which every result is the object's and which keeps the order of operations that
do not overlap.

`atomic` is the machine in which every operation takes effect in one step between
its call and its return, with the order of these steps.  Its histories are
linearizable (`linearizable_of_reachable`), so a program is shown to be linearizable
by following it with a run of `atomic` that has the same history (`Tracks`).
-/

namespace MulticorePrac

/-- A sequential data type: a start state and, for each operation, its effect and result. -/
structure Object (σ ω ρ : Type) where
  init : σ
  apply : σ → ω → σ × ρ

/-- The call and the return of operation `i` of thread `t`, with `id = (t, i)`. -/
inductive Event (ω ρ : Type)
  | call (id : Nat × Nat) (op : ω)
  | ret (id : Nat × Nat) (r : ρ)
  deriving DecidableEq, Repr

/-- An operation with its result. -/
structure Done (ω ρ : Type) where
  id : Nat × Nat
  op : ω
  result : ρ
  deriving DecidableEq, Repr

/-- `a` stands before `b` in the list. -/
def Before {α : Type} (l : List α) (a b : α) : Prop := List.Sublist [a, b] l

variable {σ ω ρ : Type} (O : Object σ ω ρ)

/-- The operations in order, and their results. -/
def Object.run : σ → List ω → σ × List ρ
  | s, [] => (s, [])
  | s, op :: ops =>
    let next := Object.run (O.apply s op).1 ops
    (next.1, (O.apply s op).2 :: next.2)

theorem Object.run_append (s : σ) (ops ops' : List ω) : O.run s (ops ++ ops') =
    ((O.run (O.run s ops).1 ops').1, (O.run s ops).2 ++ (O.run (O.run s ops).1 ops').2) := by
  induction ops generalizing s with
  | nil => rfl
  | cons op ops ih =>
    simp only [List.cons_append, Object.run, ih]

/-- One more operation. -/
theorem Object.run_concat (s : σ) (ops : List ω) (op : ω) : O.run s (ops ++ [op]) =
    ((O.apply (O.run s ops).1 op).1, (O.run s ops).2 ++ [(O.apply (O.run s ops).1 op).2]) :=
  O.run_append s ops [op]

/-- Applying the operations in order gives the results, and takes `s` to `s'`. -/
def Object.Legal : σ → List (Done ω ρ) → σ → Prop
  | s, [], s' => s = s'
  | s, e :: es, s' => (O.apply s e.op).2 = e.result ∧ Legal (O.apply s e.op).1 es s'

/-- `order` is a linearization of the history `hist` that ends in the state `final`. -/
structure Linearization (hist : List (Event ω ρ)) (final : σ) (order : List (Done ω ρ)) : Prop where
  legal : O.Legal O.init order final
  once : (order.map Done.id).Nodup
  called : ∀ e ∈ order, .call e.id e.op ∈ hist
  complete : ∀ id r, .ret id r ∈ hist → ∃ e ∈ order, e.id = id ∧ e.result = r
  realTime : ∀ a r b op, Before hist (.ret a r) (.call b op) → b ∈ order.map Done.id →
    Before (order.map Done.id) a b
  program : ∀ t i j, i < j → (t, j) ∈ order.map Done.id → Before (order.map Done.id) (t, i) (t, j)

def Linearizable (hist : List (Event ω ρ)) (final : σ) : Prop :=
  ∃ order, Linearization O hist final order

/-! ## The machine with atomic operations -/

inductive Phase (ω ρ : Type)
  | idle
  | running (op : ω)
  | decided (op : ω) (r : ρ)

/-- `calls t` is the number of operations that thread `t` has completed. -/
structure AtomicSt (σ ω ρ : Type) where
  obj : σ
  calls : Nat → Nat
  phase : Nat → Phase ω ρ
  hist : List (Event ω ρ)
  order : List (Done ω ρ)

inductive AtomicAct (ω : Type)
  | call (t : Nat) (op : ω)
  | commit (t : Nat)
  | ret (t : Nat)

def AtomicSt.step (s : AtomicSt σ ω ρ) : AtomicAct ω → Option (AtomicSt σ ω ρ)
  | .call t op =>
    match s.phase t with
    | .idle => some { s with
        phase := Function.update s.phase t (.running op)
        hist := s.hist ++ [.call (t, s.calls t) op] }
    | _ => none
  | .commit t =>
    match s.phase t with
    | .running op => some { s with
        obj := (O.apply s.obj op).1
        phase := Function.update s.phase t (.decided op (O.apply s.obj op).2)
        order := s.order ++ [⟨(t, s.calls t), op, (O.apply s.obj op).2⟩] }
    | _ => none
  | .ret t =>
    match s.phase t with
    | .decided _ r => some { s with
        calls := Function.update s.calls t (s.calls t + 1)
        phase := Function.update s.phase t .idle
        hist := s.hist ++ [.ret (t, s.calls t) r] }
    | _ => none

def atomic : Machine (AtomicSt σ ω ρ) (AtomicAct ω) where
  init := ⟨O.init, fun _ => 0, fun _ => .idle, [], []⟩
  step := AtomicSt.step O

/-! ## Its histories are linearizable -/

theorem before_append {α : Type} {x y z : α} {l : List α} :
    Before (l ++ [z]) x y ↔ Before l x y ∨ (x ∈ l ∧ y = z) := by
  unfold Before
  rw [List.sublist_append_iff]
  constructor
  · rintro ⟨l1, l2, he, h1, h2⟩
    rcases List.sublist_singleton.mp h2 with rfl | rfl
    · rw [List.append_nil] at he
      exact Or.inl (he ▸ h1)
    · obtain ⟨rfl, rfl⟩ : [x] = l1 ∧ y = z := by
        have := List.append_inj' (show [x] ++ [y] = l1 ++ [z] from he) rfl
        exact ⟨this.1, List.singleton_inj.mp this.2⟩
      exact Or.inr ⟨List.singleton_sublist.mp h1, rfl⟩
  · rintro (h | ⟨h, rfl⟩)
    · exact ⟨[x, y], [], by simp, h, List.nil_sublist _⟩
    · exact ⟨[x], [y], rfl, List.singleton_sublist.mpr h, List.Sublist.refl _⟩

theorem Object.legal_append {e : Done ω ρ} {s'' : σ} :
    ∀ (es : List (Done ω ρ)) (s s' : σ), O.Legal s es s' → (O.apply s' e.op).2 = e.result →
      (O.apply s' e.op).1 = s'' → O.Legal s (es ++ [e]) s'' := by
  intro es
  induction es with
  | nil =>
    intro s s' h h1 h2
    obtain rfl : s = s' := h
    exact ⟨h1, h2⟩
  | cons d es ih =>
    intro s s' h h1 h2
    exact ⟨h.1, ih _ s' h.2 h1 h2⟩

/-- What holds in every state of `atomic`: the order is a linearization, and the phases say which
operations have been called, have taken effect and have returned. -/
structure AtomicInv (s : AtomicSt σ ω ρ) : Prop extends Linearization O s.hist s.obj s.order where
  called_le : ∀ t i op, .call (t, i) op ∈ s.hist → i < s.calls t ∨ (i = s.calls t ∧
    (s.phase t = .running op ∨ ∃ r, s.phase t = .decided op r))
  ordered_lt : ∀ e ∈ s.order, e.id.2 < s.calls e.id.1 ∨ (e.id.2 = s.calls e.id.1 ∧
    s.phase e.id.1 = .decided e.op e.result)
  ret_lt : ∀ t i r, .ret (t, i) r ∈ s.hist → i < s.calls t
  returned : ∀ t i, i < s.calls t → ∃ r, .ret (t, i) r ∈ s.hist
  running : ∀ t op, s.phase t = .running op → .call (t, s.calls t) op ∈ s.hist
  decided : ∀ t op r, s.phase t = .decided op r → ⟨(t, s.calls t), op, r⟩ ∈ s.order
  sequential : ∀ t i j op, i < j → .call (t, j) op ∈ s.hist →
    ∃ r, Before s.hist (.ret (t, i) r) (.call (t, j) op)

section
variable {O} {s : AtomicSt σ ω ρ} {t : Nat}

theorem Before.left_mem {α : Type} {x y : α} {l : List α} (h : Before l x y) : x ∈ l :=
  h.subset List.mem_cons_self

/-- The program order is part of the real-time order. -/
theorem AtomicInv.program_of {hist : List (Event ω ρ)} {order : List (Done ω ρ)}
    (hcalled : ∀ e ∈ order, .call e.id e.op ∈ hist)
    (hseq : ∀ t i j op, i < j → .call (t, j) op ∈ hist →
      ∃ r, Before hist (.ret (t, i) r) (.call (t, j) op))
    (hreal : ∀ a r b op, Before hist (.ret a r) (.call b op) → b ∈ order.map Done.id →
      Before (order.map Done.id) a b)
    (t i j : Nat) (hij : i < j) (hj : (t, j) ∈ order.map Done.id) :
    Before (order.map Done.id) (t, i) (t, j) := by
  obtain ⟨e, he, hid⟩ := List.mem_map.mp hj
  have hc := hcalled e he
  rw [hid] at hc
  obtain ⟨r, hb⟩ := hseq t i j e.op hij hc
  exact hreal _ r _ _ hb hj

theorem AtomicInv.call (hi : AtomicInv O s) (hp : s.phase t = .idle) (op : ω) :
    AtomicInv O { s with
      phase := Function.update s.phase t (.running op)
      hist := s.hist ++ [.call (t, s.calls t) op] } := by
  -- the new operation has not been called before, so it is not in the order
  have hnew : (t, s.calls t) ∉ s.order.map Done.id := by
    intro hm
    obtain ⟨e, he, hid⟩ := List.mem_map.mp hm
    rcases hi.ordered_lt e he with h | ⟨-, h⟩
    · rw [hid] at h
      exact Nat.lt_irrefl _ h
    · rw [hid, hp] at h
      cases h
  have hcalled : ∀ e ∈ s.order, .call e.id e.op ∈ s.hist ++ [.call (t, s.calls t) op] :=
    fun e he => List.mem_append_left _ (hi.called e he)
  have hreal : ∀ a r b op', Before (s.hist ++ [.call (t, s.calls t) op]) (.ret a r) (.call b op') →
      b ∈ s.order.map Done.id → Before (s.order.map Done.id) a b := by
    intro a r b op' hb hmem
    rcases before_append.mp hb with hb | ⟨-, he⟩
    · exact hi.realTime a r b op' hb hmem
    · cases he
      exact absurd hmem hnew
  have hseq : ∀ t' i j op', i < j → .call (t', j) op' ∈ s.hist ++ [.call (t, s.calls t) op] →
      ∃ r, Before (s.hist ++ [.call (t, s.calls t) op]) (.ret (t', i) r) (.call (t', j) op') := by
    intro t' i j op' hij hm
    rcases List.mem_append.mp hm with hm | hm
    · obtain ⟨r, hb⟩ := hi.sequential t' i j op' hij hm
      exact ⟨r, before_append.mpr (Or.inl hb)⟩
    · have he := List.mem_singleton.mp hm
      cases he
      obtain ⟨r, hr⟩ := hi.returned t i hij
      exact ⟨r, before_append.mpr (Or.inr ⟨hr, rfl⟩)⟩
  refine ⟨⟨hi.legal, hi.once, hcalled, fun id r hm => ?_, hreal,
    AtomicInv.program_of hcalled hseq hreal⟩, fun t' i op' hm => ?_, fun e he => ?_,
    fun t' i r hm => ?_, fun t' i hlt => ?_, fun t' op' hph => ?_, fun t' op' r hph => ?_, hseq⟩
  · rcases List.mem_append.mp hm with hm | hm
    · exact hi.complete id r hm
    · cases List.mem_singleton.mp hm
  · rcases List.mem_append.mp hm with hm | hm
    · rcases hi.called_le t' i op' hm with h | ⟨h1, h2⟩
      · exact Or.inl h
      · by_cases ht : t' = t
        · subst ht
          rw [hp] at h2
          rcases h2 with h2 | ⟨r, h2⟩ <;> cases h2
        · right
          simp only [Function.update_of_ne ht]
          exact ⟨h1, h2⟩
    · cases List.mem_singleton.mp hm
      exact Or.inr ⟨rfl, Or.inl (Function.update_self ..)⟩
  · rcases hi.ordered_lt e he with h | ⟨h1, h2⟩
    · exact Or.inl h
    · have ht : e.id.1 ≠ t := by
        intro ht
        rw [ht, hp] at h2
        cases h2
      right
      simp only [Function.update_of_ne ht]
      exact ⟨h1, h2⟩
  · rcases List.mem_append.mp hm with hm | hm
    · exact hi.ret_lt t' i r hm
    · cases List.mem_singleton.mp hm
  · obtain ⟨r, hr⟩ := hi.returned t' i hlt
    exact ⟨r, List.mem_append_left _ hr⟩
  · by_cases ht : t' = t
    · subst ht
      simp only [Function.update_self] at hph
      cases hph
      exact List.mem_append_right _ List.mem_cons_self
    · simp only [Function.update_of_ne ht] at hph
      exact List.mem_append_left _ (hi.running t' op' hph)
  · by_cases ht : t' = t
    · subst ht
      simp only [Function.update_self] at hph
      cases hph
    · simp only [Function.update_of_ne ht] at hph
      exact hi.decided t' op' r hph

theorem AtomicInv.commit {op : ω} (hi : AtomicInv O s) (hp : s.phase t = .running op) :
    AtomicInv O { s with
      obj := (O.apply s.obj op).1
      phase := Function.update s.phase t (.decided op (O.apply s.obj op).2)
      order := s.order ++ [⟨(t, s.calls t), op, (O.apply s.obj op).2⟩] } := by
  obtain ⟨e, he⟩ : ∃ e : Done ω ρ, e = ⟨(t, s.calls t), op, (O.apply s.obj op).2⟩ := ⟨_, rfl⟩
  rw [← he]
  have hids : (s.order ++ [e]).map Done.id = s.order.map Done.id ++ [(t, s.calls t)] := by
    rw [List.map_append, he]
    rfl
  have hnew : (t, s.calls t) ∉ s.order.map Done.id := by
    intro hm
    obtain ⟨d, hd, hid⟩ := List.mem_map.mp hm
    rcases hi.ordered_lt d hd with h | ⟨-, h⟩
    · rw [hid] at h
      exact Nat.lt_irrefl _ h
    · rw [hid, hp] at h
      cases h
  have hcalled : ∀ d ∈ s.order ++ [e], .call d.id d.op ∈ s.hist := by
    intro d hd
    rcases List.mem_append.mp hd with hd | hd
    · exact hi.called d hd
    · rw [List.mem_singleton.mp hd, he]
      exact hi.running t op hp
  have hreal : ∀ a r b op', Before s.hist (.ret a r) (.call b op') →
      b ∈ (s.order ++ [e]).map Done.id → Before ((s.order ++ [e]).map Done.id) a b := by
    intro a r b op' hb hmem
    rw [hids] at hmem ⊢
    rcases List.mem_append.mp hmem with hmem | hmem
    · exact before_append.mpr (Or.inl (hi.realTime a r b op' hb hmem))
    · -- an operation that returned before the call is in the order already
      obtain ⟨d, hd, hid, -⟩ := hi.complete a r hb.left_mem
      exact before_append.mpr (Or.inr ⟨List.mem_map.mpr ⟨d, hd, hid⟩, List.mem_singleton.mp hmem⟩)
  refine ⟨⟨O.legal_append s.order _ s.obj hi.legal (by rw [he]) (by rw [he]), ?_, hcalled,
    fun id r hm => ?_, hreal, AtomicInv.program_of hcalled hi.sequential hreal⟩,
    fun t' i op' hm => ?_, fun d hd => ?_, hi.ret_lt, hi.returned, fun t' op' hph => ?_,
    fun t' op' r hph => ?_, hi.sequential⟩
  · rw [hids]
    exact hi.once.append (List.nodup_singleton _) (List.disjoint_singleton.mpr hnew)
  · obtain ⟨d, hd, h⟩ := hi.complete id r hm
    exact ⟨d, List.mem_append_left _ hd, h⟩
  · rcases hi.called_le t' i op' hm with h | ⟨h1, h2⟩
    · exact Or.inl h
    · refine Or.inr ⟨h1, ?_⟩
      by_cases ht : t' = t
      · subst ht
        rw [hp] at h2
        rcases h2 with h2 | ⟨r, h2⟩ <;> cases h2
        exact Or.inr ⟨_, Function.update_self ..⟩
      · simp only [Function.update_of_ne ht]
        exact h2
  · rcases List.mem_append.mp hd with hd | hd
    · rcases hi.ordered_lt d hd with h | ⟨h1, h2⟩
      · exact Or.inl h
      · have ht : d.id.1 ≠ t := by
          intro ht
          rw [ht, hp] at h2
          cases h2
        right
        simp only [Function.update_of_ne ht]
        exact ⟨h1, h2⟩
    · rw [List.mem_singleton.mp hd, he]
      exact Or.inr ⟨rfl, Function.update_self ..⟩
  · by_cases ht : t' = t
    · subst ht
      simp only [Function.update_self] at hph
      cases hph
    · simp only [Function.update_of_ne ht] at hph
      exact hi.running t' op' hph
  · by_cases ht : t' = t
    · subst ht
      simp only [Function.update_self] at hph
      cases hph
      rw [he]
      exact List.mem_append_right _ List.mem_cons_self
    · simp only [Function.update_of_ne ht] at hph
      exact List.mem_append_left _ (hi.decided t' op' r hph)

theorem AtomicInv.ret {op : ω} {r : ρ} (hi : AtomicInv O s) (hp : s.phase t = .decided op r) :
    AtomicInv O { s with
      calls := Function.update s.calls t (s.calls t + 1)
      phase := Function.update s.phase t .idle
      hist := s.hist ++ [.ret (t, s.calls t) r] } := by
  have hcalls : ∀ t', s.calls t' ≤ Function.update s.calls t (s.calls t + 1) t' := by
    intro t'
    by_cases ht : t' = t
    · subst ht; rw [Function.update_self]; exact Nat.le_succ _
    · rw [Function.update_of_ne ht]
  have hcalled : ∀ e ∈ s.order, .call e.id e.op ∈ s.hist ++ [.ret (t, s.calls t) r] :=
    fun e he => List.mem_append_left _ (hi.called e he)
  have hreal : ∀ a r' b op', Before (s.hist ++ [.ret (t, s.calls t) r]) (.ret a r') (.call b op') →
      b ∈ s.order.map Done.id → Before (s.order.map Done.id) a b := by
    intro a r' b op' hb hmem
    rcases before_append.mp hb with hb | ⟨-, he⟩
    · exact hi.realTime a r' b op' hb hmem
    · cases he
  have hseq : ∀ t' i j op', i < j → .call (t', j) op' ∈ s.hist ++ [.ret (t, s.calls t) r] →
      ∃ r', Before (s.hist ++ [.ret (t, s.calls t) r]) (.ret (t', i) r') (.call (t', j) op') := by
    intro t' i j op' hij hm
    rcases List.mem_append.mp hm with hm | hm
    · obtain ⟨r', hb⟩ := hi.sequential t' i j op' hij hm
      exact ⟨r', before_append.mpr (Or.inl hb)⟩
    · cases List.mem_singleton.mp hm
  refine ⟨⟨hi.legal, hi.once, hcalled, fun id r' hm => ?_, hreal,
    AtomicInv.program_of hcalled hseq hreal⟩, fun t' i op' hm => ?_, fun e he => ?_,
    fun t' i r' hm => ?_, fun t' i hlt => ?_, fun t' op' hph => ?_, fun t' op' r' hph => ?_, hseq⟩
  · rcases List.mem_append.mp hm with hm | hm
    · exact hi.complete id r' hm
    · cases List.mem_singleton.mp hm
      exact ⟨_, hi.decided t op r hp, rfl, rfl⟩
  · rcases List.mem_append.mp hm with hm | hm
    · rcases hi.called_le t' i op' hm with h | ⟨h1, h2⟩
      · exact Or.inl (Nat.lt_of_lt_of_le h (hcalls t'))
      · by_cases ht : t' = t
        · subst ht
          left
          simp only [Function.update_self]
          omega
        · right
          simp only [Function.update_of_ne ht]
          exact ⟨h1, h2⟩
    · cases List.mem_singleton.mp hm
  · rcases hi.ordered_lt e he with h | ⟨h1, h2⟩
    · exact Or.inl (Nat.lt_of_lt_of_le h (hcalls _))
    · by_cases ht : e.id.1 = t
      · left
        simp only [ht, Function.update_self]
        rw [ht] at h1
        omega
      · right
        simp only [Function.update_of_ne ht]
        exact ⟨h1, h2⟩
  · rcases List.mem_append.mp hm with hm | hm
    · exact Nat.lt_of_lt_of_le (hi.ret_lt t' i r' hm) (hcalls t')
    · cases List.mem_singleton.mp hm
      simp only [Function.update_self]
      exact Nat.lt_succ_self _
  · by_cases ht : t' = t ∧ i = s.calls t
    · obtain ⟨rfl, rfl⟩ := ht
      exact ⟨r, List.mem_append_right _ List.mem_cons_self⟩
    · have hlt' : i < s.calls t' := by
        by_cases htt : t' = t
        · subst htt
          simp only [Function.update_self] at hlt
          have : i ≠ s.calls t' := fun h => ht ⟨rfl, h⟩
          omega
        · simpa only [Function.update_of_ne htt] using hlt
      obtain ⟨r', hr⟩ := hi.returned t' i hlt'
      exact ⟨r', List.mem_append_left _ hr⟩
  · by_cases ht : t' = t
    · subst ht
      simp only [Function.update_self] at hph
      cases hph
    · simp only [Function.update_of_ne ht] at hph ⊢
      exact List.mem_append_left _ (hi.running t' op' hph)
  · by_cases ht : t' = t
    · subst ht
      simp only [Function.update_self] at hph
      cases hph
    · simp only [Function.update_of_ne ht] at hph ⊢
      exact hi.decided t' op' r' hph

theorem AtomicInv.initial : AtomicInv O (atomic O).init := by
  refine ⟨⟨rfl, List.nodup_nil, ?_, ?_, ?_, ?_⟩, ?_, ?_, ?_, ?_, ?_, ?_, ?_⟩
  · intro e he; cases he
  · intro id r hm; cases hm
  · intro a r b op hb; cases hb.left_mem
  · intro t i j _ hm; cases hm
  · intro t i op hm; cases hm
  · intro e he; cases he
  · intro t i r hm; cases hm
  · intro t i hlt; cases hlt
  · intro t op hph; cases hph
  · intro t op r hph; cases hph
  · intro t i j op _ hm; cases hm

theorem AtomicInv.of_reachable (hs : (atomic O).Reachable s) : AtomicInv O s := by
  refine (atomic O).invariant (AtomicInv O) AtomicInv.initial (fun s a s' hi hstep => ?_) hs
  change AtomicSt.step O s a = some s' at hstep
  cases a with
  | call t op =>
    cases hp : s.phase t with
    | idle =>
      simp only [AtomicSt.step, hp] at hstep
      cases hstep
      exact hi.call hp op
    | running op' => simp only [AtomicSt.step, hp] at hstep; cases hstep
    | decided op' r => simp only [AtomicSt.step, hp] at hstep; cases hstep
  | commit t =>
    cases hp : s.phase t with
    | idle => simp only [AtomicSt.step, hp] at hstep; cases hstep
    | running op =>
      simp only [AtomicSt.step, hp] at hstep
      cases hstep
      exact hi.commit hp
    | decided op r => simp only [AtomicSt.step, hp] at hstep; cases hstep
  | ret t =>
    cases hp : s.phase t with
    | idle => simp only [AtomicSt.step, hp] at hstep; cases hstep
    | running op => simp only [AtomicSt.step, hp] at hstep; cases hstep
    | decided op r =>
      simp only [AtomicSt.step, hp] at hstep
      cases hstep
      exact hi.ret hp

theorem linearizable_of_reachable (hs : (atomic O).Reachable s) :
    Linearizable O s.hist s.obj :=
  ⟨s.order, (AtomicInv.of_reachable hs).toLinearization⟩

end

/-! ## Following a program -/

section
variable {τ : Type} (calls : τ → Nat) (phase : τ → Phase ω ρ)

/-- A program with this history, whose threads show by `calls` and `phase` how far they are, is
matched by a run of `atomic` that has come to the state `obj`. -/
def Tracks (hist : List (Event ω ρ)) (thread : Nat → τ) (obj : σ) : Prop :=
  ∃ order, (atomic O).Reachable ⟨obj, fun t => calls (thread t), fun t => phase (thread t), hist, order⟩

namespace Tracks

variable {O calls phase} {hist : List (Event ω ρ)} {thread : Nat → τ} {obj : σ} {t : Nat} {l : τ}

theorem initial (hc : ∀ t, calls (thread t) = 0) (hp : ∀ t, phase (thread t) = .idle) :
    Tracks O calls phase [] thread O.init := by
  refine ⟨[], ?_⟩
  rw [funext hc, funext hp]
  exact Machine.Reachable.init (atomic O)

theorem calls_update (thread : Nat → τ) (t : Nat) (l : τ) :
    (fun u => calls (Function.update thread t l u)) =
      Function.update (fun u => calls (thread u)) t (calls l) :=
  Function.comp_update ..

theorem phase_update (thread : Nat → τ) (t : Nat) (l : τ) :
    (fun u => phase (Function.update thread t l u)) =
      Function.update (fun u => phase (thread u)) t (phase l) :=
  Function.comp_update ..

/-- A step inside an operation. -/
theorem stutter (h : Tracks O calls phase hist thread obj) (hc : calls l = calls (thread t))
    (hp : phase l = phase (thread t)) :
    Tracks O calls phase hist (Function.update thread t l) obj := by
  unfold Tracks at h ⊢
  rw [calls_update, phase_update, hc, hp, Function.update_eq_self, Function.update_eq_self]
  exact h

theorem call {op : ω} (h : Tracks O calls phase hist thread obj) (hidle : phase (thread t) = .idle)
    (hc : calls l = calls (thread t)) (hp : phase l = .running op) :
    Tracks O calls phase (hist ++ [.call (t, calls (thread t)) op]) (Function.update thread t l)
      obj := by
  obtain ⟨order, hr⟩ := h
  refine ⟨order, hr.step (atomic O) (a := .call t op) ?_⟩
  rw [calls_update, phase_update, hc, hp, Function.update_eq_self]
  simp only [atomic, AtomicSt.step, hidle]

/-- The step at which the operation takes effect. -/
theorem commit {op : ω} {r : ρ} {next : σ} (h : Tracks O calls phase hist thread obj)
    (hrun : phase (thread t) = .running op) (hc : calls l = calls (thread t))
    (happly : O.apply obj op = (next, r)) (hp : phase l = .decided op r) :
    Tracks O calls phase hist (Function.update thread t l) next := by
  obtain ⟨order, hr⟩ := h
  refine ⟨order ++ [⟨(t, calls (thread t)), op, r⟩], hr.step (atomic O) (a := .commit t) ?_⟩
  rw [calls_update, phase_update, hc, hp, Function.update_eq_self]
  simp only [atomic, AtomicSt.step, hrun, happly]

theorem ret {op : ω} {r : ρ} (h : Tracks O calls phase hist thread obj)
    (hdone : phase (thread t) = .decided op r) (hc : calls l = calls (thread t) + 1)
    (hp : phase l = .idle) :
    Tracks O calls phase (hist ++ [.ret (t, calls (thread t)) r]) (Function.update thread t l)
      obj := by
  obtain ⟨order, hr⟩ := h
  refine ⟨order, hr.step (atomic O) (a := .ret t) ?_⟩
  rw [calls_update, phase_update, hc, hp]
  simp only [atomic, AtomicSt.step, hdone]

theorem linearizable (h : Tracks O calls phase hist thread obj) : Linearizable O hist obj := by
  obtain ⟨order, hr⟩ := h
  exact linearizable_of_reachable hr

/-- When no thread is in an operation, every operation that was called has returned. -/
theorem returned (h : Tracks O calls phase hist thread obj) (hidle : ∀ t, phase (thread t) = .idle)
    {id : Nat × Nat} {op : ω} (hcall : .call id op ∈ hist) : ∃ r, .ret id r ∈ hist := by
  obtain ⟨order, hr⟩ := h
  have hi := AtomicInv.of_reachable hr
  rcases hi.called_le id.1 id.2 op hcall with hlt | ⟨-, hrun | ⟨r, hdone⟩⟩
  · exact hi.returned id.1 id.2 hlt
  · exact absurd ((hidle id.1).symm.trans hrun) (fun hc => by cases hc)
  · exact absurd ((hidle id.1).symm.trans hdone) (fun hc => by cases hc)

end Tracks

end

end MulticorePrac
