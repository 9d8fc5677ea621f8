import MulticorePrac.Mvcc.Snapshot

/-!
# The MVCC simulation with 32-bit ints

The model of `mvcc.cpp` counts without a bound.  Here its `int`s have 32 bits.
`g_exec_order++` and the two sums of line 230 are the places where the program
computes a new one, and an overflow there is undefined behaviour: `mvcc32` ends
in `none`.  Up to that point it takes the steps of `mvcc`.

`Ints` is what the numbers satisfy in every state: `g_exec_order` counts the
transactions that were started, `A + B = 100`, and `A` starts below 100 and grows
by 0 to 99 in every update, so that it never gets smaller.
-/

namespace MulticorePrac.Mvcc

def INT_MIN : Int := -2147483648

def InInt (z : Int) : Prop := INT_MIN ≤ z ∧ z ≤ INT_MAX

instance (z : Int) : Decidable (InInt z) := inferInstanceAs (Decidable (_ ∧ _))

/-- The action computes an int that does not fit: lines 167 and 230. -/
def Overflows (s : St) : Act → Prop
  | .thread x =>
    ((s.thr x).pc = .idle ∧ ¬ InInt (s.execOrder + 1 : Nat)) ∨
      ((s.thr x).pc = .push ∧ ¬ (InInt (newData (s.thr x)).A ∧ InInt (newData (s.thr x)).B))
  | _ => False

instance (s : St) : ∀ a, Decidable (Overflows s a)
  | .thread _ => inferInstanceAs (Decidable (_ ∨ _))
  | .pick _ _ => isFalse id
  | .gc => isFalse id

/-- One step with 32-bit ints; `none` is the state after an overflow. -/
def step32 (m : HeadLoads) (n : Nat) : Option St → Act → Option (Option St)
  | none, _ => none
  | some s, a =>
    match step m n s a with
    | none => none
    | some s' => if Overflows s a then some none else some (some s')

def mvcc32 (m : HeadLoads) (rand : Nat → Nat) (n : Nat) : Machine (Option St) Act where
  init := some (initial rand n)
  step := step32 m n

theorem step32_of_not_overflows {m : HeadLoads} {n : Nat} {s s' : St} {a : Act}
    (hs : step m n s a = some s') (ho : ¬ Overflows s a) :
    step32 m n (some s) a = some (some s') := by
  simp only [step32, hs, if_neg ho]

/-! ## Counting in the log -/

/-- The transactions that have drawn a version. -/
def started : List Event → Nat
  | [] => 0
  | .snapshot _ :: l => started l + 1
  | _ :: l => started l

/-- The versions that thread `i` has pushed. -/
def updates : List Event → Nat → Nat
  | [], _ => 0
  | .push x _ :: l, i => if x = i then updates l i + 1 else updates l i
  | _ :: l, i => updates l i

/-- The condition on a step: GC assigns only heads that it compared, the transactions fit into
the versions that are left after `main`, and a thread that pushes has few updates behind it. -/
def Within (n : Nat) (s : St) : Act → Prop
  | .thread x =>
    ((s.thr x).pc = .idle → n + started s.log < INT_MAX) ∧
      ((s.thr x).pc = .push → 99 * (updates s.log x + 2) ≤ INT_MAX)
  | .pick _ _ => True
  | .gc => SameHead s

instance (n : Nat) (s : St) : ∀ a, Decidable (Within n s a)
  | .thread _ => inferInstanceAs (Decidable (_ ∧ _))
  | .pick _ _ => isTrue trivial
  | .gc => inferInstanceAs (Decidable (SameHead s))

/-! ## What the numbers satisfy -/

def Balanced (d : Data) : Prop := 0 ≤ d.A ∧ d.A + d.B = 100

/-- The copies that thread `x` has in its local variables. -/
def Copies (log : List Event) (x : Nat) (l : Local) : Prop :=
  0 ≤ l.dataI.A ∧
    (l.pc = .push → Balanced l.dataX ∧ l.dataX.A ≤ 99 * (updates log x + 1 : Nat))

structure Ints (n : Nat) (s : St) : Prop where
  order : s.execOrder = n + started s.log
  cell : ∀ a c, s.heap a = some c → a < s.fresh ∧ Balanced c.data
  head : ∀ i a, s.head i = some a → a < s.fresh ∧
    ∀ c, s.heap a = some c → c.data.A ≤ 99 * (updates s.log i + 1 : Nat)
  copies : ∀ x, Copies s.log x (s.thr x)

section
variable {m : HeadLoads} {rand : Nat → Nat} {n x : Nat} {s s' : St}

theorem tmod_100_bounds {z : Int} (h : 0 ≤ z) : 0 ≤ z.tmod 100 ∧ z.tmod 100 ≤ 99 := by
  rw [Int.tmod_eq_emod_of_nonneg h]
  omega

/-- Line 230 keeps the sum, and `A` grows by at most 99. -/
theorem Copies.newData {log : List Event} {l : Local} (h : Copies log x l) (hpc : l.pc = .push) :
    Balanced (newData l) ∧ (Mvcc.newData l).A ≤ 99 * (updates log x + 2 : Nat) := by
  obtain ⟨hI, hX⟩ := h
  obtain ⟨⟨hA, hsum⟩, hle⟩ := hX hpc
  have hmod := tmod_100_bounds hI
  unfold Balanced Mvcc.newData
  push_cast at hle ⊢
  refine ⟨⟨?_, ?_⟩, ?_⟩ <;> omega

theorem Copies.goto {log : List Event} {l : Local} {pc : Pc} (h : Copies log x l)
    (hpc : pc ≠ .push) : Copies log x { l with pc := pc } :=
  ⟨h.1, fun he => absurd he hpc⟩

theorem Ints.setThr (h : Ints n s) {l : Local} (hl : Copies s.log x l) : Ints n (s.setThr x l) := by
  refine ⟨h.order, h.cell, h.head, fun y => ?_⟩
  show Copies s.log y (Function.update s.thr x l y)
  by_cases hy : y = x
  · subst hy
    rw [Function.update_self]
    exact hl
  · rw [Function.update_of_ne hy]
    exact h.copies y

theorem Ints.goto (h : Ints n s) {pc : Pc} (hpc : pc ≠ .push) : Ints n (s.goto x pc) :=
  h.setThr ((h.copies x).goto hpc)

theorem ints_initial (rand : Nat → Nat) (n : Nat) : Ints n (initial rand n) := by
  have hdata : ∀ i, Balanced (initialData rand i) ∧ (initialData rand i).A ≤ 99 := by
    intro i
    unfold Balanced initialData A_PLUS_B
    refine ⟨⟨?_, ?_⟩, ?_⟩ <;> push_cast <;> omega
  have hcell : ∀ a c, (initial rand n).heap a = some c → a < n ∧ c.data = initialData rand a := by
    intro a c hc
    by_cases ha : a < n
    · simp only [initial, if_pos ha, Option.some.injEq] at hc
      exact ⟨ha, by rw [← hc]⟩
    · simp [initial, ha] at hc
  refine ⟨rfl, fun a c hc => ?_, fun i a hi => ?_, fun x => ⟨Int.le_refl _, ?_⟩⟩
  · obtain ⟨ha, he⟩ := hcell a c hc
    exact ⟨ha, by rw [he]; exact (hdata a).1⟩
  · have hlt : a < n := by
      by_cases hin : i < n
      · simp only [initial, if_pos hin, Option.some.injEq] at hi
        omega
      · simp [initial, hin] at hi
    refine ⟨hlt, fun c hc => ?_⟩
    rw [(hcell a c hc).2]
    exact (hdata a).2
  · intro hpc
    cases hpc

/-! ## The steps -/

theorem Ints.snapshot (h : Ints n s) (x : Nat) : Ints n (snapshot s x) := by
  unfold Mvcc.snapshot
  cases s.head x with
  | none => exact h.goto (by simp)
  | some a =>
    cases hc : s.heap a with
    | none => simp only [hc]; exact h.goto (by simp)
    | some c =>
      simp only [hc]
      refine ⟨?_, fun b e hb => ?_, fun i b hi => ?_, fun y => ?_⟩
      · show s.execOrder + 1 = n + (started s.log + 1)
        rw [h.order]
        rfl
      · obtain ⟨h1, h2⟩ := h.cell b e hb
        exact ⟨Nat.lt_succ_of_lt h1, h2⟩
      · obtain ⟨h1, h2⟩ := h.head i b hi
        exact ⟨Nat.lt_succ_of_lt h1, h2⟩
      · show Copies s.log y (Function.update s.thr x _ y)
        by_cases hy : y = x
        · subst hy
          rw [Function.update_self]
          exact ⟨(h.copies y).1, fun he => by cases he⟩
        · rw [Function.update_of_ne hy]
          exact h.copies y

theorem Ints.found (h : Ints n s) {a : Nat} {d : Data} (hd : 0 ≤ d.A) : Ints n (found s x a d) := by
  have hl := h.setThr (x := x) (l := { s.thr x with pc := .copyX, dataI := d })
    ⟨hd, fun he => by cases he⟩
  exact ⟨hl.order, hl.cell, hl.head, hl.copies⟩

theorem Ints.test (h : Ints n s) (node : Option Nat) : Ints n (test s x node) := by
  unfold Mvcc.test
  cases node with
  | none => exact h.goto (by simp)
  | some a =>
    cases hc : s.heap a with
    | none => simp only [hc]; exact h.goto (by simp)
    | some c =>
      simp only [hc]
      have hA := (h.cell a c hc).2.1
      repeat' split
      all_goals first | exact h.found hA | exact h.goto (by simp)

theorem Ints.next (h : Ints n s) (node : Nat) : Ints n (next s x node) := by
  unfold Mvcc.next
  split <;> exact h.goto (by simp)

theorem Ints.copyX (h : Ints n s) (x : Nat) : Ints n (copyX s x) := by
  unfold Mvcc.copyX
  cases hh : s.head x with
  | none => exact h.goto (by simp)
  | some a =>
    cases hc : s.heap a with
    | none => simp only [hc]; exact h.goto (by simp)
    | some c =>
      simp only [hc]
      exact h.setThr ⟨(h.copies x).1, fun _ => ⟨(h.cell a c hc).2, (h.head x a hh).2 c hc⟩⟩

theorem updates_push (log : List Event) (x i : Nat) (node : Nat × Data) :
    updates log i ≤ updates (.push x node :: log) i := by
  show updates log i ≤ if x = i then updates log i + 1 else updates log i
  split <;> omega

theorem Copies.mono {log log' : List Event} {y : Nat} {l : Local} (h : Copies log y l)
    (hle : updates log y ≤ updates log' y) : Copies log' y l := by
  refine ⟨h.1, fun hpc => ⟨(h.2 hpc).1, ?_⟩⟩
  have := (h.2 hpc).2
  omega

theorem Ints.push (h : Ints n s) (hpc : (s.thr x).pc = .push) : Ints n (push s x) := by
  obtain ⟨hbal, hle⟩ := (h.copies x).newData hpc
  refine ⟨h.order, fun a c hc => ?_, fun i a hi => ?_, fun y => ?_⟩
  · -- the new cell is the only one that was not there before
    have hc' : Function.update s.heap s.fresh (some ⟨s.head x, newData (s.thr x)⟩) a = some c := hc
    show a < s.fresh + 1 ∧ Balanced c.data
    by_cases ha : a = s.fresh
    · subst ha
      rw [Function.update_self] at hc'
      cases hc'
      exact ⟨Nat.lt_succ_self _, hbal⟩
    · rw [Function.update_of_ne ha] at hc'
      obtain ⟨h1, h2⟩ := h.cell a c hc'
      exact ⟨Nat.lt_succ_of_lt h1, h2⟩
  · have hi' : Function.update s.head x (some s.fresh) i = some a := hi
    show a < s.fresh + 1 ∧ ∀ c,
      Function.update s.heap s.fresh (some ⟨s.head x, newData (s.thr x)⟩) a = some c →
        c.data.A ≤ 99 * (updates (.push x (s.fresh, newData (s.thr x)) :: s.log) i + 1 : Nat)
    by_cases hix : i = x
    · subst hix
      rw [Function.update_self] at hi'
      cases hi'
      refine ⟨Nat.lt_succ_self _, fun c hc => ?_⟩
      rw [Function.update_self] at hc
      cases hc
      have hup : updates (.push i (s.fresh, newData (s.thr i)) :: s.log) i =
          updates s.log i + 1 := if_pos rfl
      rw [hup]
      exact hle
    · rw [Function.update_of_ne hix] at hi'
      obtain ⟨h1, h2⟩ := h.head i a hi'
      refine ⟨Nat.lt_succ_of_lt h1, fun c hc => ?_⟩
      rw [Function.update_of_ne (Nat.ne_of_lt h1)] at hc
      have := h2 c hc
      have hup := updates_push s.log x i (s.fresh, newData (s.thr x))
      omega
  · show Copies (.push x _ :: s.log) y (Function.update s.thr x _ y)
    by_cases hy : y = x
    · subst hy
      rw [Function.update_self]
      exact ⟨(h.copies y).1, fun he => by cases he⟩
    · rw [Function.update_of_ne hy]
      exact (h.copies y).mono (updates_push s.log x y _)

theorem Ints.leave (h : Ints n s) (x : Nat) : Ints n (leave s x) := by
  have hl := h.setThr (x := x) (l := { s.thr x with pc := .idle }) ((h.copies x).goto (by simp))
  exact ⟨hl.order, hl.cell, hl.head, hl.copies⟩

theorem Ints.updateAB (h : Ints n s) (hs : updateAB s x = some s') : Ints n s' := by
  unfold Mvcc.updateAB at hs
  cases hpc : (s.thr x).pc with
  | idle => simp only [hpc] at hs; cases hs; exact h.snapshot x
  | pick => simp [hpc] at hs
  | loadHead => simp only [hpc] at hs; cases hs; exact h.goto (by simp)
  | test node => simp only [hpc] at hs; cases hs; exact h.test node
  | next node => simp only [hpc] at hs; cases hs; exact h.next node
  | copyX => simp only [hpc] at hs; cases hs; exact h.copyX x
  | push => simp only [hpc] at hs; cases hs; exact h.push hpc
  | leave => simp only [hpc] at hs; cases hs; exact h.leave x
  | fault f => simp [hpc] at hs

theorem nodeErase_data {h : Heap Data} {b a d : Nat} {r : Heap Data × Option Nat} {c : Cell Data}
    (he : nodeErase h b a = some r) (hc : r.1 d = some c) :
    ∃ c', h d = some c' ∧ c.data = c'.data := by
  unfold nodeErase at he
  cases hb : h b with
  | none => simp [hb] at he
  | some cb =>
    cases ha : h a with
    | none => simp [hb, ha] at he
    | some ca =>
      simp only [hb, ha, Option.some.injEq] at he
      subst he
      simp only [Function.update_apply] at hc
      by_cases hda : d = a
      · simp [hda] at hc
      · rw [if_neg hda] at hc
        by_cases hdb : d = b
        · rw [if_pos hdb] at hc
          cases hc
          exact ⟨cb, by rw [hdb, hb], rfl⟩
        · rw [if_neg hdb] at hc
          exact ⟨c, hc, rfl⟩

/-- GC changes only the heap and its own variables, and no data in the cells that it leaves. -/
theorem gc_cells (hs : gc m n s = some s') :
    ∃ h g r, s' = withGc s h g r ∧
      ∀ a c, h a = some c → ∃ c', s.heap a = some c' ∧ c.data = c'.data := by
  have hsame : ∀ a c, s.heap a = some c → ∃ c', s.heap a = some c' ∧ c.data = c'.data :=
    fun a c hc => ⟨c, hc, rfl⟩
  unfold gc at hs
  repeat' split at hs
  all_goals cases hs
  -- only an erase writes to the heap
  all_goals first
    | exact ⟨s.heap, _, _, rfl, hsame⟩
    | exact ⟨_, _, _, rfl, fun _ _ hc => nodeErase_data (by assumption) hc⟩

theorem Ints.gc (h : Ints n s) (hs : gc m n s = some s') : Ints n s' := by
  obtain ⟨hp, g, r, rfl, hdata⟩ := gc_cells hs
  refine ⟨h.order, fun a c hc => ?_, fun i a hi => ?_, h.copies⟩
  · obtain ⟨c', hc', he⟩ := hdata a c hc
    rw [he]
    exact h.cell a c' hc'
  · refine ⟨(h.head i a hi).1, fun c hc => ?_⟩
    obtain ⟨c', hc', he⟩ := hdata a c hc
    rw [he]
    exact (h.head i a hi).2 c' hc'

theorem Ints.step {a : Act} (h : Ints n s) (hs : step m n s a = some s') : Ints n s' := by
  cases a with
  | thread x => exact h.updateAB (step_thread.mp hs).2
  | pick x i =>
    obtain ⟨-, -, rfl⟩ := step_pick.mp hs
    exact h.setThr ⟨(h.copies x).1, fun he => by cases he⟩
  | gc => exact h.gc hs

/-- Within the bounds no step overflows. -/
theorem Ints.not_overflows {a : Act} (h : Ints n s) (hw : Within n s a) : ¬ Overflows s a := by
  cases a with
  | thread x =>
    rintro (⟨hpc, ho⟩ | ⟨hpc, ho⟩)
    · have hlt := hw.1 hpc
      rw [← h.order] at hlt
      apply ho
      unfold InInt INT_MIN
      omega
    · have hle := hw.2 hpc
      obtain ⟨⟨hA, hsum⟩, hup⟩ := (h.copies x).newData hpc
      apply ho
      unfold InInt INT_MIN
      unfold INT_MAX at *
      omega
  | pick x i => exact id
  | gc => exact id

end

/-! ## Runs within the bounds -/

/-- `Within`, for a state that has not overflowed. -/
def StepWithin (n : Nat) : Option St → Act → Prop
  | none, _ => True
  | some s, a => Within n s a

instance (n : Nat) : ∀ (o : Option St) (a : Act), Decidable (StepWithin n o a)
  | none, _ => isTrue trivial
  | some s, a => inferInstanceAs (Decidable (Within n s a))

/-- **Long runs**: as long as GC assigns only heads that it compared, fewer than
`INT_MAX - n` transactions were started and a pushing thread has fewer than 21691753 updates
behind it, no int overflows, the lists are strictly descending and no assertion fails. -/
theorem ints_survive (rand : Nat → Nat) (n : Nat) (as : List Act) (o : Option St)
    (hp : (mvcc32 .each rand n).AllSteps (StepWithin n) (mvcc32 .each rand n).init as)
    (hr : (mvcc32 .each rand n).run as = some o) :
    ∃ s, o = some s ∧ (∀ i < n, ∃ l, Chain s.heap (s.head i) l ∧ Desc l) ∧
      ∀ x < n, ∀ f, (s.thr x).pc ≠ .fault f := by
  have hinv : ∃ s, o = some s ∧ Ints n s ∧ ∃ t, Refines .each rand n s t := by
    refine (mvcc32 .each rand n).invariantOn (StepWithin n)
      (fun o => ∃ s, o = some s ∧ Ints n s ∧ ∃ t, Refines .each rand n s t) ?_ ?_ hp hr
    · exact ⟨_, rfl, ints_initial rand n, _, refines_initial .each rand n⟩
    · rintro _ a o' ⟨s, rfl, hints, t, href⟩ hw hs
      have hw' : Within n s a := hw
      have hs' : step32 .each n (some s) a = some o' := hs
      cases hstep : step .each n s a with
      | none => simp [step32, hstep] at hs'
      | some s' =>
        rw [step32_of_not_overflows hstep (hints.not_overflows hw')] at hs'
        cases hs'
        refine ⟨s', rfl, hints.step hstep, ?_⟩
        cases a with
        | gc => exact ⟨t, href.drop (fun _ => hw') hstep⟩
        | thread x =>
          obtain ⟨t', -, h'⟩ := href.keep (by simp) hstep
          exact ⟨t', h'⟩
        | pick x i =>
          obtain ⟨t', -, h'⟩ := href.keep (by simp) hstep
          exact ⟨t', h'⟩
  obtain ⟨s, rfl, -, t, ⟨L, M, h⟩, -⟩ := hinv
  have hthr : s.thr = t.thr := by rw [h.same]; rfl
  have hhead : s.head = t.head := by rw [h.same]; rfl
  refine ⟨s, rfl, fun i hi => ⟨M i, ?_, h.desc hi⟩, fun x hx f hpc => ?_⟩
  · rw [hhead]
    exact h.chain i hi
  · have hok := h.inv.pcOk x hx
    unfold PcOk at hok
    rw [← hthr, hpc] at hok
    exact hok

/-- Two transactions around a GC. -/
theorem ints_survive_steadyRun :
    ∃ s, (mvcc32 .each (fun _ => 7) 2).run steadyRun = some (some s) ∧ s.execOrder = 4 ∧
      ∀ i < 2, ∃ l, Chain s.heap (s.head i) l ∧ Desc l := by
  have hs : (((mvcc32 .each (fun _ => 7) 2).run steadyRun).any fun o =>
      o.any fun s => s.execOrder == 4) = true := by
    decide
  obtain ⟨o, hr, ho⟩ := (Option.any_eq_true _ _).mp hs
  obtain ⟨s, rfl, hdesc, -⟩ := ints_survive _ _ steadyRun o (by decide) hr
  exact ⟨s, hr, by simpa using ho, hdesc⟩

/-! ## Runs that leave the bounds -/

/-- The only thread between two transactions, with `A` in its newest data. -/
structure Alone (s : St) (A : Int) (e : Nat) : Prop where
  pc : (s.thr 0).pc = .idle
  order : s.execOrder = e
  active : s.active = []
  newest : ∃ a c, s.head 0 = some a ∧ s.heap a = some c ∧ c.data.A = A ∧ c.data.B = 100 - A

/-- The only thread before its push. -/
structure Pushing (s : St) (A : Int) (e : Nat) : Prop where
  pc : (s.thr 0).pc = .push
  order : s.execOrder = e
  active : ∃ d, s.active = [⟨(s.thr 0).myNode, d⟩]
  dataX : (s.thr 0).dataX.A = A ∧ (s.thr 0).dataX.B = 100 - A
  dataI : (s.thr 0).dataI.A = A

section
variable {rand : Nat → Nat} {s : St} {A : Int} {e : Nat}

/-- `ownTx`, up to the push. -/
def readOwn : List Act := [.thread 0, .pick 0 0, .thread 0, .thread 0, .thread 0]

theorem Alone.readOwn (h : Alone s A e) (rand : Nat → Nat) (he : e < INT_MAX) :
    ∃ s', (mvcc32 .each rand 1).runFrom (some s) readOwn = some (some s') ∧
      Pushing s' A (e + 1) := by
  obtain ⟨hpc, ho, hact, a, c, hh, hc, hA, hB⟩ := h
  have hfit : InInt ((s.execOrder : Int) + 1) := by
    unfold InInt INT_MIN
    omega
  simp only [mvcc32, Mvcc.readOwn, Machine.runFrom, step32, step, zero_lt_one, ↓reduceIte, updateAB,
    hpc, snapshot, hh, hc, hact, List.map_cons, List.map_nil, List.reverse_cons, List.reverse_nil,
    List.nil_append, Overflows, Int.natCast_add, Int.cast_ofNat_Int, hfit, not_true_eq_false,
    and_false, reduceCtorEq, not_and, false_and, or_self, and_self, Function.update_self, pick,
    St.setThr, BEq.rfl, List.find?_cons_of_pos, Option.map_some, Function.update_idem, St.goto, test,
    Std.le_refl, found, copyX, Option.some.injEq, exists_eq_left']
  refine ⟨?_, ?_, ?_, ?_, ?_⟩ <;> simp [ho, hA, hB]

theorem Pushing.newData (h : Pushing s A e) :
    (newData (s.thr 0)).A = A + A.tmod 100 ∧ (Mvcc.newData (s.thr 0)).B = 100 - (A + A.tmod 100) := by
  unfold Mvcc.newData
  rw [h.dataX.1, h.dataX.2, h.dataI]
  refine ⟨rfl, ?_⟩
  show 100 - A - A.tmod 100 = 100 - (A + A.tmod 100)
  omega

theorem Pushing.commit (h : Pushing s A e) (rand : Nat → Nat) (h0 : 0 ≤ A)
    (hA : A + A.tmod 100 ≤ INT_MAX) :
    ∃ s', (mvcc32 .each rand 1).runFrom (some s) [.thread 0, .thread 0] = some (some s') ∧
      Alone s' (A + A.tmod 100) e := by
  have hmod := tmod_100_bounds h0
  obtain ⟨hdA, hdB⟩ := h.newData
  have hfit : InInt (Mvcc.newData (s.thr 0)).A ∧ InInt (Mvcc.newData (s.thr 0)).B := by
    rw [hdA, hdB]
    unfold InInt INT_MIN
    unfold INT_MAX at *
    refine ⟨⟨?_, ?_⟩, ⟨?_, ?_⟩⟩ <;> omega
  obtain ⟨hpc, ho, ⟨d, hact⟩, -, -⟩ := h
  simp only [Machine.runFrom, mvcc32, step32, step, zero_lt_one, ↓reduceIte, updateAB, hpc, push,
    Overflows, reduceCtorEq, false_and, hfit, and_self, not_true_eq_false, and_false, or_self,
    Function.update_self, leave, Function.update_idem, Option.some.injEq, exists_eq_left']
  refine ⟨?_, ?_, ?_, ?_⟩ <;> simp [ho, hact, hdA, hdB]

/-- One whole transaction of the only thread. -/
theorem Alone.transaction (h : Alone s A e) (A' : Int) (h0 : 0 ≤ A) (he : e < INT_MAX)
    (hadd : A + A % 100 = A') (hA : A' ≤ INT_MAX) (hr : (mvcc32 .each rand 1).Reachable (some s)) :
    ∃ s', (mvcc32 .each rand 1).Reachable (some s') ∧ Alone s' A' (e + 1) := by
  rw [← Int.tmod_eq_emod_of_nonneg h0] at hadd
  subst hadd
  obtain ⟨s1, hrun1, h1⟩ := h.readOwn rand he
  obtain ⟨s2, hrun2, h2⟩ := h1.commit rand h0 hA
  exact ⟨s2, (hr.runFrom _ hrun1).runFrom _ hrun2, h2⟩

theorem alone_initial (A : Nat) (hA : A < 100) : Alone (initial (fun _ => A) 1) A 1 := by
  refine ⟨rfl, rfl, rfl, 0, _, rfl, rfl, ?_, ?_⟩ <;>
    simp [initialData, A_PLUS_B, Nat.mod_eq_of_lt hA]

/-- With `A = 0` the data never changes, and every version is drawn. -/
theorem alone_zero (k : Nat) (hk : k < INT_MAX) :
    ∃ s, (mvcc32 .each (fun _ => 0) 1).Reachable (some s) ∧ Alone s 0 (k + 1) := by
  induction k with
  | zero => exact ⟨_, Machine.Reachable.init _, alone_initial 0 (by omega)⟩
  | succ k ih =>
    obtain ⟨s, hr, h⟩ := ih (by omega)
    exact h.transaction 0 (Int.le_refl 0) hk rfl (by decide) hr

/-- From `A = 20` on, four transactions add 20, 40, 80 and 60. -/
theorem alone_twenty (k : Nat) (hk : 200 * k + 20 ≤ INT_MAX) :
    ∃ s, (mvcc32 .each (fun _ => 20) 1).Reachable (some s) ∧
      Alone s (200 * k + 20) (4 * k + 1) := by
  induction k with
  | zero => exact ⟨_, Machine.Reachable.init _, alone_initial 20 (by omega)⟩
  | succ k ih =>
    obtain ⟨s0, hr0, h0⟩ := ih (by omega)
    obtain ⟨s1, hr1, h1⟩ := h0.transaction (200 * k + 40) (by omega) (by omega) (by omega)
      (by omega) hr0
    obtain ⟨s2, hr2, h2⟩ := h1.transaction (200 * k + 80) (by omega) (by omega) (by omega)
      (by omega) hr1
    obtain ⟨s3, hr3, h3⟩ := h2.transaction (200 * k + 160) (by omega) (by omega) (by omega)
      (by omega) hr2
    obtain ⟨s4, hr4, h4⟩ := h3.transaction (200 * k + 220) (by omega) (by omega) (by omega)
      (by omega) hr3
    refine ⟨s4, hr4, ?_⟩
    have hA : (200 * (k + 1 : Nat) + 20 : Int) = 200 * k + 220 := by push_cast; omega
    rw [hA]
    exact h4

/-- One thread is enough.  With 0 as its first `A` the draw of the last version overflows; with
20, the new `A` overflows in transaction 42949674, at `g_exec_order = 42949675`. -/
theorem ints_overflow :
    (∃ s, (mvcc32 .each (fun _ => 0) 1).Reachable (some s) ∧ (s.thr 0).pc = .idle ∧
      s.execOrder = INT_MAX ∧ (mvcc32 .each (fun _ => 0) 1).step (some s) (.thread 0) = some none) ∧
    ∃ s, (mvcc32 .each (fun _ => 20) 1).Reachable (some s) ∧ (s.thr 0).pc = .push ∧
      s.execOrder = 42949675 ∧ (newData (s.thr 0)).A = 2147483680 ∧
      (mvcc32 .each (fun _ => 20) 1).step (some s) (.thread 0) = some none := by
  constructor
  · obtain ⟨s, hr, h⟩ := alone_zero (INT_MAX - 1) (by decide)
    have ho : Overflows s (.thread 0) := by
      refine Or.inl ⟨h.pc, ?_⟩
      rw [h.order]
      decide
    refine ⟨s, hr, h.pc, h.order, ?_⟩
    simp [mvcc32, step32, step, updateAB, h.pc, ho]
  · obtain ⟨s0, hr0, h0⟩ := alone_twenty 10737418 (by decide)
    obtain ⟨s1, hr1, h1⟩ := h0.transaction 2147483640 (by decide) (by decide) (by decide)
      (by decide) hr0
    obtain ⟨s, hrun, h⟩ := h1.readOwn (fun _ => 20) (by decide)
    have hA : (newData (s.thr 0)).A = 2147483680 := h.newData.1
    have ho : Overflows s (.thread 0) := by
      refine Or.inr ⟨h.pc, fun hfit => ?_⟩
      rw [hA] at hfit
      exact absurd hfit.1 (by decide)
    refine ⟨s, hr1.runFrom _ hrun, h.pc, h.order, hA, ?_⟩
    simp [mvcc32, step32, step, updateAB, h.pc, ho]

end

end MulticorePrac.Mvcc
