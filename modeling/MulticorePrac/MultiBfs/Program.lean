import MulticorePrac.House.Answer
import MulticorePrac.House.Cores
import MulticorePrac.MultiBfs.Levels

/-!
# Project1: the whole program

`main` gives each `HouseWorker` a number of threads.  A worker with one thread searches
with `BFSSingleThread`, as in `House.houseWorkers`; one with more calls `BFSMultiThread`,
which is a whole run of `MultiBfs.search` from the house that it took.  All searches, of
either kind, share `visit_bitmap`: `visit_bits_` of a search is the row of its start house,
and a house that is found sets a bit in its own row too.

`search w` are the variables of the search of worker `w`; its `visitBits` are loaded from
the bitmap before each step.  `result` of a worker is that of the search it is in.

`prints_right`: whatever `main` prints is the answer.  The invariant is that of the house
workers, with each search with more threads a reachable state of its own machine: what the
others do to its row are steps `other` there.
-/

namespace MulticorePrac.MultiBfs.Program

open House (Bits BFSResult Problem gPow2 setVisitBits workerStep mainStep Recorded Complete Moved
  SearchOk Sound getLsbD_setVisitBits numThreadsPerWorkerArr)

structure Prog where
  base : House.St
  search : Nat → St

inductive Act
  | house (w : Nat)
  | child (w u : Nat)
  | main
  deriving DecidableEq, Repr

/-- The variables of the search of worker `w`, with the row of its start house. -/
def Prog.load (s : Prog) (w : Nat) : St :=
  { s.search w with visitBits := s.base.visitBitmap (s.base.worker w).startIndex }

/-- The bitmap after a step of a search: `VisitVertex` sets the bits of both houses. -/
def wrote (p : Problem) (bitmap : Nat → Bits) (startIndex : Nat) (t : St) :
    MultiBfs.Act → Nat → Bits
  | .worker u =>
    if (t.worker u).pc = .setBits then
      setVisitBits bitmap startIndex (p.context.houseIndexMap (t.worker u).v)
    else bitmap
  | _ => bitmap

/-- The search of worker `w` becomes `t`. -/
def Prog.store (s : Prog) (w : Nat) (bitmap : Nat → Bits) (t : St) : Prog where
  base := { s.base.setWorker w { s.base.worker w with result := t.result } with
    visitBitmap := bitmap }
  search := Function.update s.search w t

/-- A step of the search of worker `w`. -/
def searchStep (p : Problem) (n : Nat) (s : Prog) (w : Nat) (a : MultiBfs.Act) : Option Prog :=
  let l := s.base.worker w
  (step p l.startHouse n (s.load w) a).map
    (s.store w (wrote p s.base.visitBitmap l.startIndex (s.load w) a))

/-- `BFSThread` with more than one thread: a search is a call of `Run`. -/
def multiStep (p : Problem) (n : Nat) (s : Prog) (w : Nat) : Option Prog :=
  let l := s.base.worker w
  match l.pc with
  | .claim =>
    (workerStep p.context s.base w).map fun b =>
      { base := b, search := Function.update s.search w (initial (b.worker w).startHouse) }
  | .level =>
    if (s.search w).mainPc = .returned then
      some { s with
        base := s.base.setWorker w { l with pc := .test, total := l.total.merge l.result } }
    else searchStep p n s w .main
  | .test | .visit | .done => (workerStep p.context s.base w).map fun b => { s with base := b }

def stepOf (p : Problem) (arr : List Nat) (s : Prog) : Act → Option Prog
  | .house w =>
    match arr[w]? with
    | none => none
    | some n =>
      if n = 1 then (workerStep p.context s.base w).map fun b => { s with base := b }
      else multiStep p n s w
  | .child w u =>
    match arr[w]? with
    | none => none
    | some n =>
      if n ≠ 1 ∧ (s.base.worker w).pc = .level then searchStep p n s w (.worker u) else none
  | .main => (mainStep arr.length s.base).map fun b => { s with base := b }

/-- The program with the threads `arr` for its workers. -/
def program (p : Problem) (arr : List Nat) : Machine Prog Act where
  init := ⟨House.initial, fun _ => initial 0⟩
  step := stepOf p arr

/-! ## A search among others -/

section
variable {p : Problem} {start n : Nat} {t t' : St} {a : MultiBfs.Act}

/-- No step looks at what the others have set. -/
theorem step_otherBits (o : Bits) (ha : ∀ j, a ≠ .other j) (hs : step p start n t a = some t') :
    step p start n { t with otherBits := o } a = some { t' with otherBits := o } := by
  cases a with
  | other j => exact absurd rfl (ha j)
  | main =>
    simp only [step, run] at hs ⊢
    cases hm : t.mainPc <;> simp only [hm] at hs ⊢
    case returned => cases hs
    case create k =>
      split at hs <;> cases hs
      · next hk => rw [if_pos hk]
      · next hk => rw [if_neg hk]; rfl
    case join k =>
      split at hs
      · next hk =>
        rw [if_pos hk]
        split at hs <;> cases hs
        next hpc => rw [if_pos hpc]
      · next hk => cases hs; rw [if_neg hk]
  | worker u =>
    simp only [step] at hs ⊢
    split at hs
    · next hu =>
      rw [if_pos hu]
      cases hpc : (t.worker u).pc <;>
        simp only [beginWorkAt, idleStep, levelStep, giveStep, visitStep, barrierStep, leaveStep,
          hpc] at hs ⊢
      all_goals repeat' split at hs
      all_goals cases hs
      all_goals simp_all [St.move, St.moveSync]
    · cases hs

/-- Another search may set a bit at any time. -/
theorem reachable_other {j : Nat} {o : Bits} (hj : j < p.houses.length)
    (hjs : j ≠ p.context.houseIndexMap start)
    (h : (MultiBfs.search p start n).Reachable { t with otherBits := o }) :
    (MultiBfs.search p start n).Reachable
      { t with visitBits := t.visitBits ||| gPow2 j, otherBits := o ||| gPow2 j } := by
  refine h.step _ (a := .other j) ?_
  show step p start n _ (.other j) = _
  simp only [step, if_pos (And.intro hj hjs)]

/-- What a step does to the row and to the result. -/
theorem step_effect (ha : ∀ j, a ≠ .other j) (hs : step p start n t a = some t') :
    (t'.visitBits = match a with
      | .worker u => if (t.worker u).pc = .setBits then
          t.visitBits ||| gPow2 (p.context.houseIndexMap (t.worker u).v) else t.visitBits
      | _ => t.visitBits) ∧
    ((t'.result = t.result ∧ t'.updates = t.updates) ∨ ∃ v d, t'.result = t.result.update (d + 1) ∧
      t'.updates = (v, d + 1) :: t.updates) := by
  cases a with
  | other j => exact absurd rfl (ha j)
  | main =>
    simp only [step, run] at hs
    repeat' split at hs
    all_goals first | (cases hs; exact ⟨rfl, Or.inl ⟨rfl, rfl⟩⟩) | cases hs
  | worker u =>
    simp only [step] at hs
    split at hs
    · cases hpc : (t.worker u).pc <;>
        simp only [beginWorkAt, idleStep, levelStep, giveStep, visitStep, barrierStep, leaveStep,
          hpc] at hs
      case update =>
        cases hs
        exact ⟨by simp [St.move, hpc], Or.inr ⟨_, _, rfl, rfl⟩⟩
      all_goals repeat' split at hs
      all_goals cases hs
      all_goals exact ⟨by simp [St.move, St.moveSync, hpc], Or.inl ⟨rfl, rfl⟩⟩
    · cases hs

theorem getLsbD_or_left {b c : Bits} {j : Nat} (h : b.getLsbD j = true) :
    (b ||| c).getLsbD j = true := by
  rw [BitVec.getLsbD_or, h, Bool.true_or]

/-- What the others have set is in the row. -/
theorem otherBits_visitBits (h : (MultiBfs.search p start n).Reachable t) :
    ∀ j, t.otherBits.getLsbD j = true → t.visitBits.getLsbD j = true := by
  refine (MultiBfs.search p start n).invariant
    (fun t => ∀ j, t.otherBits.getLsbD j = true → t.visitBits.getLsbD j = true)
    (fun j hj => hj) (fun t a t' ih hs j hj => ?_) h
  by_cases ha : ∃ i, a = .other i
  · obtain ⟨i, rfl⟩ := ha
    simp only [MultiBfs.search, step] at hs
    split at hs <;> cases hs
    rw [BitVec.getLsbD_or] at hj ⊢
    rcases Bool.or_eq_true_iff.mp hj with hj | hj
    · rw [ih j hj, Bool.true_or]
    · rw [hj, Bool.or_true]
  · have ha' : ∀ i, a ≠ .other i := fun i hi => ha ⟨i, hi⟩
    have hsame : t'.otherBits = t.otherBits := by
      have := step_otherBits t.otherBits ha' hs
      rw [show step p start n { t with otherBits := t.otherBits } a = some t' from hs] at this
      rw [Option.some.inj this]
    rw [hsame] at hj
    have hbit := ih j hj
    rw [(step_effect ha' hs).1]
    cases a with
    | worker u =>
      dsimp only
      split
      · exact getLsbD_or_left hbit
      · exact hbit
    | main => exact hbit
    | other i => exact absurd rfl (ha' i)

/-- What was reported is in the result. -/
theorem covers_of_mem {us : List (Nat × Nat)} {e : Nat × Nat} (h : e ∈ us) :
    (us.foldr (fun e r => r.update e.2) BFSResult.empty).Covers e.2 := by
  induction us with
  | nil => cases h
  | cons x us ih =>
    rcases List.mem_cons.mp h with rfl | h
    · exact BFSResult.covers_update _ _
    · exact (ih h).update _

end

/-! ## The bitmap -/

section
variable {p : Problem} {m m' : Nat → Bits} {a b : Nat}

/-- Each row is what it was, or has one more bit of another house. -/
def Rows (p : Problem) (m m' : Nat → Bits) : Prop :=
  ∀ r, m' r = m r ∨ ∃ j < p.houses.length, j ≠ r ∧ m' r = m r ||| gPow2 j

theorem Rows.refl (p : Problem) (m : Nat → Bits) : Rows p m m := fun _ => Or.inl rfl

theorem setVisitBits_start (hab : a ≠ b) : setVisitBits m a b a = m a ||| gPow2 b := by
  unfold setVisitBits
  simp [hab]

theorem rows_setVisitBits (ha : a < p.houses.length) (hb : b < p.houses.length) (hab : a ≠ b) :
    Rows p m (setVisitBits m a b) := by
  intro r
  by_cases hra : r = a
  · subst hra
    exact Or.inr ⟨b, hb, hab.symm, setVisitBits_start hab⟩
  · by_cases hrb : r = b
    · subst hrb
      exact Or.inr ⟨a, ha, hab, by simp [setVisitBits, hra]⟩
    · exact Or.inl (by simp [setVisitBits, hra, hrb])

/-- A step of `BFSSingleThread` sets bits of the start house and of another one. -/
theorem rows_workerStep {N w : Nat} {s s' : House.St} (h : House.Inv p N s) (hw : w < N)
    (hs : workerStep p.context s w = some s') : Rows p s.visitBitmap s'.visitBitmap := by
  cases hpc : (s.worker w).pc with
  | test | claim | done =>
    simp only [workerStep, hpc] at hs
    repeat' split at hs
    all_goals first | (cases hs; exact Rows.refl p _) | cases hs
  | level =>
    simp only [workerStep, hpc] at hs
    cases hs
    unfold House.nextLevel
    dsimp only
    split <;> exact Rows.refl p _
  | visit =>
    have hok := h.search w hw (Or.inr hpc)
    cases hn : (s.worker w).nbrs with
    | nil =>
      cases hc : (s.worker w).cur with
      | nil =>
        rw [House.workerStep_endLevel hpc hn hc] at hs
        cases hs
        exact Rows.refl p _
      | cons v vs =>
        rw [House.workerStep_vertex hpc hn hc] at hs
        cases hs
        exact Rows.refl p _
    | cons v vs =>
      rw [House.workerStep_visit hpc hn] at hs
      cases hs
      unfold House.visitVertex
      dsimp only
      split
      · exact Rows.refl p _
      · next hc =>
        split
        · next hb =>
          have hv := p.mem_houseBitmap.mp hb
          refine rows_setVisitBits hok.startIndex_lt (p.index_lt hv) fun he => hc ?_
          -- the start house is checked from the beginning
          rw [hok.startIndex] at he
          rw [← index_inj hok.start_mem hv he]
          exact ((hok.visit hpc).marked _).mpr (Or.inl ⟨0, Nat.zero_le _, at_zero.mpr rfl⟩)
        · exact Rows.refl p _

/-- A worker changes its own variables, and does not move `main`. -/
theorem frame_workerStep {w : Nat} {s s' : House.St} (hs : workerStep p.context s w = some s') :
    s.houseIndex ≤ s'.houseIndex ∧ s'.mainPc = s.mainPc ∧
      ∃ l, s'.worker = Function.update s.worker w l := by
  cases hpc : (s.worker w).pc <;> simp only [workerStep, hpc] at hs
  case level =>
    cases hs
    unfold House.nextLevel
    dsimp only
    split <;> exact ⟨Nat.le_refl _, rfl, _, rfl⟩
  case visit =>
    split at hs <;> cases hs
    · unfold House.visitVertex
      dsimp only
      repeat' split
      all_goals exact ⟨Nat.le_refl _, rfl, _, rfl⟩
    · exact ⟨Nat.le_refl _, rfl, _, rfl⟩
    · exact ⟨Nat.le_refl _, rfl, _, rfl⟩
  case claim =>
    split at hs <;> cases hs
    · exact ⟨Nat.le_succ _, rfl, _, rfl⟩
    · exact ⟨Nat.le_succ _, rfl, _, rfl⟩
  all_goals repeat' split at hs
  all_goals first | (cases hs; exact ⟨Nat.le_refl _, rfl, _, rfl⟩) | cases hs

/-- No house has a bit in its own row. -/
theorem own_bit_clear {N i : Nat} {s : House.St} (h : House.Inv p N s) :
    (s.visitBitmap i).getLsbD i = false := by
  refine Bool.eq_false_of_not_eq_true fun hbit => ?_
  obtain ⟨-, -, d, hat, w, hw, hcov⟩ := h.bits i i hbit
  have hzero : d = 0 := hat.inj (at_zero.mpr rfl)
  rcases h.sound w hw with he | ⟨hmin, -⟩
  · rw [he] at hcov
    have : House.INT_MAX ≤ d := hcov.1
    rw [hzero] at this
    exact absurd this (by decide)
  · have := (House.distances_range hmin).1
    have := hcov.1
    omega

/-- A new search finds bits in its row already: the others have set them before. -/
theorem reachable_initial {start n : Nat} {b : Bits} (hb : ∀ j, b.getLsbD j = true →
    j < p.houses.length ∧ j ≠ p.context.houseIndexMap start) :
    (MultiBfs.search p start n).Reachable { initial start with visitBits := b, otherBits := b } := by
  have hupto : ∀ k, ∃ c : Bits, (∀ j, c.getLsbD j = (decide (j < k) && b.getLsbD j)) ∧
      (MultiBfs.search p start n).Reachable
        { initial start with visitBits := c, otherBits := c } := by
    intro k
    induction k with
    | zero => exact ⟨0, fun j => by simp, Machine.Reachable.init _⟩
    | succ k ih =>
      obtain ⟨c, hc, hr⟩ := ih
      cases hk : b.getLsbD k with
      | false =>
        refine ⟨c, fun j => ?_, hr⟩
        rw [hc j]
        by_cases hjk : j = k
        · rw [hjk, hk, Bool.and_false, Bool.and_false]
        · rw [show decide (j < k + 1) = decide (j < k) by simp; omega]
      | true =>
        obtain ⟨hlt, hne⟩ := hb k hk
        have hlt64 : k < 64 := Nat.lt_of_lt_of_le hlt p.houses_le
        refine ⟨c ||| gPow2 k, fun j => ?_, reachable_other (t := { initial start with visitBits := c }) hlt hne hr⟩
        rw [BitVec.getLsbD_or, hc j, House.getLsbD_gPow2]
        by_cases hjk : k = j
        · subst hjk
          simp [hk, hlt64]
        · have : decide (j < k + 1) = decide (j < k) := by simp; omega
          rw [this]
          simp [hjk]
  obtain ⟨c, hc, hr⟩ := hupto 64
  have hcb : c = b := by
    apply BitVec.eq_of_getLsbD_eq
    intro i hi
    rw [hc i]
    simp [hi]
  rwa [hcb] at hr

end

/-! ## The invariant -/

/-- Worker `w` is in a search with `n` threads. -/
structure InSearch (p : Problem) (n : Nat) (s : Prog) (w : Nat) : Prop where
  frozen : s.base.worker w =
    { (s.base.worker w).start p.context with result := (s.search w).result }
  reached : ∃ o, (MultiBfs.search p (s.base.worker w).startHouse n).Reachable
    { s.load w with otherBits := o }

structure Inv (p : Problem) (arr : List Nat) (s : Prog) : Prop where
  base : House.Inv p arr.length s.base
  never : ∀ w n, arr[w]? = some n → n ≠ 1 → (s.base.worker w).pc ≠ .visit
  search : ∀ w n, arr[w]? = some n → n ≠ 1 → (s.base.worker w).pc = .level → InSearch p n s w

section
variable {p : Problem} {arr : List Nat} {s s' : Prog} {w n N : Nat} {t : St} {a : MultiBfs.Act}

/-- What the others do to the row of a search are steps of its machine. -/
theorem InSearch.keep (h : InSearch p n s w)
    (hindex : (s.base.worker w).startIndex = p.context.houseIndexMap (s.base.worker w).startHouse)
    (hworker : s'.base.worker w = s.base.worker w) (hsearch : s'.search w = s.search w)
    (hrows : Rows p s.base.visitBitmap s'.base.visitBitmap) : InSearch p n s' w := by
  obtain ⟨hfrozen, o, hr⟩ := h
  refine ⟨by rw [hworker, hsearch]; exact hfrozen, ?_⟩
  unfold Prog.load
  rw [hworker, hsearch]
  rcases hrows (s.base.worker w).startIndex with hrow | ⟨j, hj, hne, hrow⟩
  · rw [hrow]
    exact ⟨o, hr⟩
  · rw [hrow]
    exact ⟨_, reachable_other (o := o) hj (hindex ▸ hne) hr⟩

theorem Inv.keep_others (h : Inv p arr s) (hworker : ∀ v, v ≠ w → s'.base.worker v = s.base.worker v)
    (hsearch : ∀ v, v ≠ w → s'.search v = s.search v)
    (hrows : Rows p s.base.visitBitmap s'.base.visitBitmap) (hbase : House.Inv p arr.length s'.base)
    (hw : ∀ n, arr[w]? = some n → n ≠ 1 → (s'.base.worker w).pc ≠ .visit ∧
      ((s'.base.worker w).pc = .level → InSearch p n s' w)) : Inv p arr s' := by
  refine ⟨hbase, fun v n hv hn => ?_, fun v n hv hn hpc => ?_⟩
  · by_cases hvw : v = w
    · subst hvw
      exact (hw n hv hn).1
    · rw [hworker v hvw]
      exact h.never v n hv hn
  · by_cases hvw : v = w
    · subst hvw
      exact (hw n hv hn).2 hpc
    · rw [hworker v hvw] at hpc
      have hlt : v < arr.length := (List.getElem?_eq_some_iff.mp hv).1
      exact (h.search v n hv hn hpc).keep (h.base.search v hlt (Or.inl hpc)).startIndex
        (hworker v hvw) (hsearch v hvw) hrows

/-- The search variables of the worker itself stay as they were at the start. -/
theorem searchOk_frozen {l : House.Worker} (h : SearchOk p l) {r r' : BFSResult}
    (hf : l = { l.start p.context with result := r }) : SearchOk p { l with result := r' } := by
  have hpc : l.pc = .level := by rw [hf]; rfl
  have hcheck : l.checkMap = Function.update (fun _ => false) l.startHouse true := by
    rw [hf]
    rfl
  refine ⟨h.index, h.start, h.startIndex, fun v hv hne hc => ?_, fun _ => ?_, fun hc => ?_⟩
  · have hc' : l.checkMap v = true := hc
    rw [hcheck, Function.update_of_ne hne] at hc'
    cases hc'
  · exact ⟨(h.level hpc).marked, (h.level hpc).next⟩
  · exact absurd (hpc.symm.trans hc) (by decide)

/-- A step sets no bits, or those of a house that was reported. -/
theorem wrote_spec {start i : Nat} {t t' : St} {o : Bits} (m : Nat → Bits)
    (h : Found p start { t with otherBits := o }) (ha : ∀ j, a ≠ .other j)
    (hs : step p start n t a = some t') :
    (wrote p m i t a = m ∧ t'.visitBits = t.visitBits) ∨
    ∃ v d, v ∈ p.houses ∧ v ≠ start ∧ (v, d) ∈ t.updates ∧
      wrote p m i t a = setVisitBits m i (p.context.houseIndexMap v) ∧
      t'.visitBits = t.visitBits ||| gPow2 (p.context.houseIndexMap v) := by
  have hrow := (step_effect ha hs).1
  cases a with
  | other j => exact absurd rfl (ha j)
  | main => exact Or.inl ⟨rfl, hrow⟩
  | worker u =>
    by_cases hpc : (t.worker u).pc = .setBits
    · obtain ⟨hne, hv, d, hd⟩ : (t.worker u).v ≠ start ∧ (t.worker u).v ∈ p.houses ∧
          ∃ d, ((t.worker u).v, d) ∈ t.updates := (h.hand u).here hpc
      simp only [if_pos hpc] at hrow
      exact Or.inr ⟨_, d, hv, hne, hd, if_pos hpc, hrow⟩
    · simp only [if_neg hpc] at hrow
      exact Or.inl ⟨if_neg hpc, hrow⟩

/-- The result of a search is kept, or a distance is folded into it. -/
theorem result_spec {start : Nat} {t t' : St} {o : Bits} (hstart : start ∈ p.houses)
    (h : Found p start { t' with otherBits := o }) (ha : ∀ j, a ≠ .other j)
    (hs : step p start n t a = some t') : (∀ e ∈ t.updates, e ∈ t'.updates) ∧
      (t'.result = t.result ∨ ∃ d ∈ House.distances p, t'.result = t.result.update d) := by
  rcases (step_effect ha hs).2 with ⟨hres, hup⟩ | ⟨v, d, hres, hup⟩
  · exact ⟨fun e he => hup ▸ he, Or.inl hres⟩
  · obtain ⟨hv, hat⟩ := h.sound (v, d + 1) (by show _ ∈ t'.updates; rw [hup]; exact List.mem_cons_self)
    have hne : start ≠ v := by
      rintro rfl
      have := hat.inj (at_zero.mpr rfl)
      omega
    exact ⟨fun e he => hup ▸ List.mem_cons_of_mem _ he,
      Or.inr ⟨d + 1, House.mem_distances hstart hv hne hat, hres⟩⟩

/-- A step of the search of worker `w`, as a step of the house workers. -/
theorem inv_store (h : House.Inv p N s.base) (hw : w < N) (hpc : (s.base.worker w).pc = .level)
    (hin : InSearch p n s w) (hn : 0 < n) (hn' : n ≤ 64) (ha : ∀ j, a ≠ .other j)
    (hs : step p (s.base.worker w).startHouse n (s.load w) a = some t) :
    let s' := s.store w (wrote p s.base.visitBitmap (s.base.worker w).startIndex (s.load w) a) t
    House.Inv p N s'.base ∧ InSearch p n s' w ∧ Rows p s.base.visitBitmap s'.base.visitBitmap ∧
      s'.load w = t := by
  intro s'
  have hsearching : House.Searching (s.base.worker w) := Or.inl hpc
  have hok := h.search w hw hsearching
  obtain ⟨hfrozen, o, hr⟩ := hin
  have hfound := (searchInv_of_reachable hok.start_mem hn hn' hr).found
  have hr' : (MultiBfs.search p (s.base.worker w).startHouse n).Reachable
      { t with otherBits := o } := hr.step _ (step_otherBits o ha hs)
  have hfound' := (searchInv_of_reachable hok.start_mem hn hn' hr').found
  have hresult : (s.base.worker w).result = (s.load w).result := by rw [hfrozen]; rfl
  obtain ⟨hups, hres⟩ := result_spec hok.start_mem hfound' ha hs
  have hwrote := wrote_spec (i := (s.base.worker w).startIndex) s.base.visitBitmap hfound ha hs
  have hself : s'.base.worker w = { s.base.worker w with result := t.result } :=
    Function.update_self ..
  have hsf : ({ s.base.worker w with result := t.result } : House.Worker).soFar =
      (s.base.worker w).total.merge t.result := House.soFar_of_searching (Or.inl hpc)
  have hsf' := House.soFar_of_searching hsearching
  have hmoved : Moved s.base s'.base w { s.base.worker w with result := t.result } := by
    refine ⟨rfl, rfl, rfl, Nat.le_refl _, by rw [hpc]; decide, fun d hd => ?_⟩
    rw [hsf', hresult] at hd
    rw [hsf]
    rcases hres with heq | ⟨e, -, heq⟩
    · rwa [heq]
    · rw [heq, BFSResult.merge_update]
      exact hd.update e
  have hrows : Rows p s.base.visitBitmap s'.base.visitBitmap := by
    rcases hwrote with ⟨heq, -⟩ | ⟨v, d, hv, hne, -, heq, -⟩
    · show Rows p _ (wrote p _ _ _ _)
      rw [heq]
      exact Rows.refl p _
    · show Rows p _ (wrote p _ _ _ _)
      rw [heq]
      refine rows_setVisitBits hok.startIndex_lt (p.index_lt hv) fun he => hne ?_
      rw [hok.startIndex] at he
      exact (index_inj hok.start_mem hv he).symm
  have hload : s'.load w = t := by
    unfold Prog.load
    rw [hself, show s'.search w = t from Function.update_self ..]
    have hbits : s'.base.visitBitmap (s.base.worker w).startIndex = t.visitBits := by
      show wrote p _ _ _ _ _ = _
      rcases hwrote with ⟨heq, hv⟩ | ⟨v, d, hv, hne, -, heq, hb⟩
      · rw [heq, hv]
        rfl
      · rw [heq, hb, setVisitBits_start]
        · rfl
        · intro he
          rw [hok.startIndex] at he
          exact hne (index_inj hok.start_mem hv he).symm
    dsimp only
    rw [hbits]
  refine ⟨?_, ⟨?_, o, ?_⟩, hrows, hload⟩
  · refine h.move hmoved (fun i j hij => ?_) (fun _ => searchOk_frozen hok hfrozen) ?_ (fun k hk hks => ?_)
      (fun hd => absurd (hpc.symm.trans hd) (by decide))
    · rcases hwrote with ⟨heq, -⟩ | ⟨v, d, hv, hne, hd, heq, -⟩
      · have hij' : (wrote p s.base.visitBitmap _ (s.load w) a i).getLsbD j = true := hij
        rw [heq] at hij'
        exact Or.inl hij'
      · have hij' : (wrote p s.base.visitBitmap _ (s.load w) a i).getLsbD j = true := hij
        rw [heq] at hij'
        -- the distance of the house is in the result already
        have hrec : Recorded p N s'.base (s.base.worker w).startHouse v := by
          refine ⟨d, (hfound'.sound _ (hups _ hd)).2, w, hw, ?_⟩
          rw [hself, hsf]
          refine BFSResult.Covers.merge_right ?_ _
          rw [hfound'.result]
          exact covers_of_mem (hups _ hd)
        rcases getLsbD_setVisitBits hij' with hx | ⟨rfl, rfl⟩ | ⟨rfl, rfl⟩
        · exact Or.inl hx
        · refine Or.inr ⟨hok.startIndex_lt, p.index_lt hv, ?_⟩
          rw [hok.houseOf_startIndex, p.houseOf_index hv]
          exact hrec
        · refine Or.inr ⟨p.index_lt hv, hok.startIndex_lt, ?_⟩
          rw [hok.houseOf_startIndex, p.houseOf_index hv]
          exact hrec.symm
    · rw [hsf]
      have hsound := h.sound w hw
      rw [hsf', hresult] at hsound
      rcases hres with heq | ⟨e, he, heq⟩
      · rwa [heq]
      · rw [heq, BFSResult.merge_update]
        exact hsound.update he
    · by_cases hk' : (s.base.worker w).houseIndex = k
      · exact Or.inr (Or.inl ⟨Or.inl hpc, hk', hw⟩)
      · exact Or.inl ⟨hks, fun hc => hk' hc.2⟩
  · rw [hself, show s'.search w = t from Function.update_self ..]
    exact congrArg (fun l : House.Worker => { l with result := t.result }) hfrozen
  · rw [hself, hload]
    exact hr'

/-- `Run` has returned: every house it can reach was reported or has its bit from another search,
and a bit is set only when the distance is in some result. -/
theorem complete_of_returned (h : House.Inv p N s.base) (hw : w < N)
    (hpc : (s.base.worker w).pc = .level) (hin : InSearch p n s w) (hn : 0 < n) (hn' : n ≤ 64)
    (hret : (s.search w).mainPc = .returned) :
    Complete p N s.base (s.base.worker w).houseIndex := by
  have hok := h.search w hw (Or.inl hpc)
  obtain ⟨hfrozen, o, hr⟩ := hin
  have hinv := searchInv_of_reachable hok.start_mem hn hn' hr
  intro v hv hne hreach
  rw [← hok.start] at hne hreach ⊢
  rcases hinv.all_reported hok.start_mem hret hv hne hreach with ⟨d, hd⟩ | hbit
  · refine ⟨d, (hinv.found.sound _ hd).2, w, hw, ?_⟩
    rw [House.soFar_of_searching (Or.inl hpc)]
    refine BFSResult.Covers.merge_right ?_ _
    rw [show (s.base.worker w).result = (s.load w).result by rw [hfrozen]; rfl,
      show (s.load w).result = _ from hinv.found.result]
    exact covers_of_mem hd
  · have hrow := otherBits_visitBits hr _ hbit
    have hrec := (h.bits _ _ hrow).2.2
    rwa [hok.houseOf_startIndex, p.houseOf_index hv] at hrec

/-- The end of a search: its result is merged. -/
theorem inv_return (h : House.Inv p N s.base) (hw : w < N)
    (hpc : (s.base.worker w).pc = .level)
    (hcomplete : Complete p N s.base (s.base.worker w).houseIndex) :
    House.Inv p N (s.base.setWorker w { s.base.worker w with
      pc := .test, total := (s.base.worker w).total.merge (s.base.worker w).result }) := by
  have hsf := House.soFar_of_searching (l := s.base.worker w) (Or.inl hpc)
  have hnot : ¬ House.Searching { s.base.worker w with
      pc := .test, total := (s.base.worker w).total.merge (s.base.worker w).result } := by
    rintro (hc | hc) <;> cases hc
  have hm : Moved s.base (s.base.setWorker w { s.base.worker w with
      pc := .test, total := (s.base.worker w).total.merge (s.base.worker w).result }) w
      { s.base.worker w with
        pc := .test, total := (s.base.worker w).total.merge (s.base.worker w).result } := by
    refine ⟨rfl, rfl, rfl, Nat.le_refl _, by rw [hpc]; decide, fun d hd => ?_⟩
    rw [House.soFar_of_not_searching hnot]
    rwa [hsf] at hd
  refine h.move hm (fun i j hij => Or.inl hij) (fun hc => absurd hc hnot) ?_ (fun k hk hks => ?_)
    (fun hd => by cases hd)
  · rw [House.soFar_of_not_searching hnot]
    have hsound := h.sound w hw
    rwa [hsf] at hsound
  · by_cases hk' : (s.base.worker w).houseIndex = k
    · subst hk'
      exact Or.inr (Or.inr (hm.complete hcomplete))
    · exact Or.inl ⟨hks, fun hc => hk' hc.2⟩

theorem inv_searchStep (h : Inv p arr s) (harr : arr[w]? = some n) (hone : n ≠ 1) (hn : 0 < n)
    (hn' : n ≤ 64) (hpc : (s.base.worker w).pc = .level) (ha : ∀ j, a ≠ .other j)
    (hs : searchStep p n s w a = some s') : Inv p arr s' := by
  have hw : w < arr.length := (List.getElem?_eq_some_iff.mp harr).1
  obtain ⟨t, ht, rfl⟩ := Option.map_eq_some_iff.mp hs
  obtain ⟨hbase, hin, hrows, -⟩ := inv_store h.base hw hpc (h.search w n harr hone hpc) hn hn' ha ht
  have hpc' : ((s.store w (wrote p s.base.visitBitmap (s.base.worker w).startIndex (s.load w) a)
      t).base.worker w).pc = .level := by
    show (Function.update s.base.worker w _ w).pc = .level
    rw [Function.update_self]
    exact hpc
  refine h.keep_others (fun v hv => Function.update_of_ne hv _ _)
    (fun v hv => Function.update_of_ne hv _ _) hrows hbase fun n' hn' _ => ?_
  obtain rfl : n = n' := Option.some.inj (harr.symm.trans hn')
  exact ⟨by rw [hpc']; decide, fun _ => hin⟩

/-- A step of `BFSThread` outside of a search, or with one thread. -/
theorem inv_house {b : House.St} (h : Inv p arr s) (hw : w < arr.length)
    (hs : workerStep p.context s.base w = some b) (f : Nat → St)
    (hf : ∀ v, v ≠ w → f v = s.search v)
    (hself : ∀ n, arr[w]? = some n → n ≠ 1 → (b.worker w).pc ≠ .visit ∧
      ((b.worker w).pc = .level → InSearch p n ⟨b, f⟩ w)) : Inv p arr ⟨b, f⟩ := by
  obtain ⟨-, -, l, hl⟩ := frame_workerStep hs
  refine h.keep_others (fun v hv => ?_) hf (rows_workerStep h.base hw hs)
    (House.inv_worker h.base hw hs) hself
  show b.worker v = _
  rw [hl, Function.update_of_ne hv]

theorem claim_worker {b : House.St} (hpc : (s.base.worker w).pc = .claim)
    (hs : workerStep p.context s.base w = some b) : b.houseIndex = s.base.houseIndex + 1 ∧
      ((b.worker w).pc = .done ∨ (s.base.houseIndex + 1 < p.houses.length ∧
        (b.worker w).pc = .level ∧ b.worker w = (b.worker w).start p.context)) := by
  simp only [workerStep, hpc] at hs
  split at hs <;> cases hs
  · next hlt =>
    refine ⟨rfl, Or.inr ⟨hlt, ?_⟩⟩
    simp only [House.St.setWorker, Function.update_self]
    exact ⟨rfl, rfl⟩
  · refine ⟨rfl, Or.inl ?_⟩
    simp only [House.St.setWorker, Function.update_self]

/-- The variables of a search that begins. -/
theorem load_begins (b : House.St) (f : Nat → St) (w : Nat) :
    (⟨b, Function.update f w (initial (b.worker w).startHouse)⟩ : Prog).load w =
      { initial (b.worker w).startHouse with
        visitBits := b.visitBitmap (b.worker w).startIndex } := by
  simp only [Prog.load, Function.update_self]

/-- The house is taken, and a new search begins. -/
theorem inv_begins {b : House.St} (h : Inv p arr s) (hw : w < arr.length)
    (hpc : (s.base.worker w).pc = .claim) (hs : workerStep p.context s.base w = some b) :
    Inv p arr ⟨b, Function.update s.search w (initial (b.worker w).startHouse)⟩ := by
  refine inv_house h hw hs _ (fun v hv => Function.update_of_ne hv _ _) fun n hn hone => ?_
  have hbase := House.inv_worker h.base hw hs
  rcases (claim_worker hpc hs).2 with hdone | ⟨-, hlevel, hstart⟩
  · exact ⟨by rw [hdone]; decide, fun hc => absurd (hdone.symm.trans hc) (by decide)⟩
  · refine ⟨by rw [hlevel]; decide, fun _ => ⟨?_, b.visitBitmap (b.worker w).startIndex, ?_⟩⟩
    · show b.worker w = { (b.worker w).start p.context with
        result := (Function.update s.search w (initial (b.worker w).startHouse) w).result }
      rw [Function.update_self]
      exact hstart
    · have hok := hbase.search w hw (Or.inl hlevel)
      have hbits : ∀ j, (b.visitBitmap (b.worker w).startIndex).getLsbD j = true →
          j < p.houses.length ∧ j ≠ p.context.houseIndexMap (b.worker w).startHouse := by
        intro j hj
        refine ⟨(hbase.bits _ _ hj).2.1, fun hc => ?_⟩
        rw [hc, ← hok.startIndex, own_bit_clear hbase] at hj
        cases hj
      rw [load_begins]
      exact reachable_initial hbits

theorem inv_multiStep (h : Inv p arr s) (harr : arr[w]? = some n) (hone : n ≠ 1) (hn : 0 < n)
    (hn' : n ≤ 64) (hs : multiStep p n s w = some s') : Inv p arr s' := by
  have hw : w < arr.length := (List.getElem?_eq_some_iff.mp harr).1
  unfold multiStep at hs
  cases hpc : (s.base.worker w).pc <;> simp only [hpc] at hs
  case claim =>
    obtain ⟨b, hb, rfl⟩ := Option.map_eq_some_iff.mp hs
    exact inv_begins h hw hpc hb
  case level =>
    split at hs
    · next hret =>
      cases hs
      have hcomplete := complete_of_returned h.base hw hpc (h.search w n harr hone hpc) hn hn' hret
      refine h.keep_others (w := w) (fun v hv => Function.update_of_ne hv _ _) (fun v _ => rfl)
        (Rows.refl p _) (inv_return h.base hw hpc hcomplete) fun n' _ _ => ?_
      simp [House.St.setWorker]
    · exact inv_searchStep h harr hone hn hn' hpc (fun _ hc => by cases hc) hs
  case visit => exact absurd hpc (h.never w n harr hone)
  case done =>
    obtain ⟨b, hb, rfl⟩ := Option.map_eq_some_iff.mp hs
    simp only [workerStep, hpc] at hb
    cases hb
  case test =>
    obtain ⟨b, hb, rfl⟩ := Option.map_eq_some_iff.mp hs
    refine inv_house h hw hb _ (fun _ _ => rfl) fun n' _ _ => ?_
    simp only [workerStep, hpc] at hb
    split at hb <;> cases hb <;> simp [House.St.setWorker]

/-- The numbers of threads that the tables of 64 bits allow. -/
def Fits (arr : List Nat) : Prop := ∀ k ∈ arr, 1 ≤ k ∧ k ≤ 64

theorem inv_step {a : Act} (hfits : Fits arr) (h : Inv p arr s) (hs : stepOf p arr s a = some s') :
    Inv p arr s' := by
  cases a with
  | main =>
    obtain ⟨b, hb, rfl⟩ := Option.map_eq_some_iff.mp hs
    have hbase := House.inv_main h.base hb
    have hframe : b.worker = s.base.worker ∧ b.visitBitmap = s.base.visitBitmap := by
      unfold mainStep at hb
      repeat' split at hb
      all_goals first | (cases hb; exact ⟨rfl, rfl⟩) | cases hb
    refine ⟨hbase, ?_, fun w n hw hn hpc => ?_⟩
    · rw [hframe.1]
      exact h.never
    · rw [hframe.1] at hpc
      have hlt : w < arr.length := (List.getElem?_eq_some_iff.mp hw).1
      refine (h.search w n hw hn hpc).keep (h.base.search w hlt (Or.inl hpc)).startIndex ?_ rfl ?_
      · rw [hframe.1]
      · rw [hframe.2]
        exact Rows.refl p _
  | house w =>
    simp only [stepOf] at hs
    split at hs
    · cases hs
    · next n harr =>
      have hmem := hfits n (List.mem_of_getElem? harr)
      split at hs
      · next hone =>
        obtain ⟨b, hb, rfl⟩ := Option.map_eq_some_iff.mp hs
        have hw : w < arr.length := (List.getElem?_eq_some_iff.mp harr).1
        refine inv_house h hw hb _ (fun _ _ => rfl) fun n' hn' hne => ?_
        exact absurd ((Option.some.inj (hn'.symm.trans harr)).trans hone) hne
      · next hone => exact inv_multiStep h harr hone hmem.1 hmem.2 hs
  | child w u =>
    simp only [stepOf] at hs
    split at hs
    · cases hs
    · next n harr =>
      have hmem := hfits n (List.mem_of_getElem? harr)
      split at hs
      · next hc => exact inv_searchStep h harr hc.1 hmem.1 hmem.2 hc.2 (fun _ hc => by cases hc) hs
      · cases hs

theorem inv_initial (p : Problem) (arr : List Nat) :
    Inv p arr ⟨House.initial, fun _ => initial 0⟩ :=
  ⟨House.inv_initial p arr.length, fun _ _ _ _ => nofun, fun _ _ _ _ => nofun⟩

theorem inv_of_reachable (hfits : Fits arr) (hr : (program p arr).Reachable s) : Inv p arr s :=
  (program p arr).invariant (Inv p arr) (inv_initial p arr)
    (fun _ _ _ h hs => inv_step hfits h hs) hr

end

/-! ## The answer -/

/-- With at most 64 cores for each house, no worker has more threads than the tables allow, and
there is a worker. -/
theorem exists_arr {numCores houses : Nat} (hh : 0 < houses) (hc : 0 < numCores)
    (hcores : numCores ≤ 64 * houses) :
    ∃ arr, numThreadsPerWorkerArr numCores houses = some arr ∧ Fits arr ∧ 0 < arr.length := by
  obtain ⟨arr, harr, hiff, hone⟩ :=
    House.numThreadsPerWorkerArr_le_iff numCores hh (t := 64) (by decide)
  refine ⟨arr, harr, fun k hk => ⟨hone k hk, hiff.mpr hcores k hk⟩, ?_⟩
  by_cases hlt : houses < numCores
  · obtain ⟨hk, heq⟩ := House.numThreadsPerWorkerArr_eq hh hlt
    rw [harr] at heq
    rw [Option.some.inj heq, List.length_append, List.length_replicate, List.length_replicate]
    omega
  · rw [numThreadsPerWorkerArr, if_pos (by omega)] at harr
    rw [← Option.some.inj harr, List.length_replicate]
    exact hc

theorem answer_of_printed {p : Problem} {arr : List Nat} {s : Prog} (h : Inv p arr s)
    (hlen : 0 < arr.length) (hpc : s.base.mainPc = .printed) : House.IsAnswer p s.base.result := by
  have hj : House.Joined p s.base arr.length := by
    have := h.base.main
    unfold House.MainOk at this
    rwa [hpc] at this
  exact House.isAnswer_of_covers hj.sound fun d hd =>
    House.covers_of_printed h.base (Or.inl hlen) hpc hd

/-- **What the program prints is right**, with any number of cores up to 64 for each house, for
every interleaving of the house workers, the threads of their searches and `main`. -/
theorem prints_right (p : Problem) {numCores : Nat} (hh : 0 < p.houses.length) (hc : 0 < numCores)
    (hcores : numCores ≤ 64 * p.houses.length) :
    ∃ arr, numThreadsPerWorkerArr numCores p.houses.length = some arr ∧
      ∀ s, (program p arr).Reachable s → s.base.mainPc = .printed →
        House.IsAnswer p s.base.result := by
  obtain ⟨arr, harr, hfits, hlen⟩ := exists_arr hh hc hcores
  exact ⟨arr, harr, fun s hr hpc => answer_of_printed (inv_of_reachable hfits hr) hlen hpc⟩

/-- With three cores for two houses, the second worker has two threads; it takes the first house,
and `main` prints when both workers are done. -/
def mixedRun : List Act :=
  List.replicate 2 (.house 1) ++
    returningRun.map (fun
      | .worker u => .child 1 u
      | _ => .house 1) ++
    [.house 1, .house 1, .house 0, .main, .main, .main]

theorem prints_right_mixedRun :
    numThreadsPerWorkerArr 3 forkProblem.houses.length = some [1, 2] ∧
    ∃ s, (program forkProblem [1, 2]).run mixedRun = some s ∧ s.base.mainPc = .printed ∧
      s.base.result = ⟨2, 2⟩ ∧ House.IsAnswer forkProblem s.base.result := by
  have harr : numThreadsPerWorkerArr 3 forkProblem.houses.length = some [1, 2] := by
    decide +kernel
  have hs : (((program forkProblem [1, 2]).run mixedRun).any fun s =>
      decide (s.base.mainPc = .printed ∧ s.base.result = ⟨2, 2⟩)) = true := by
    decide +kernel
  obtain ⟨s, hr, h0⟩ := (Option.any_eq_true _ _).mp hs
  obtain ⟨h1, h2⟩ := of_decide_eq_true h0
  obtain ⟨arr, harr', hright⟩ := prints_right forkProblem (by decide) (show 0 < 3 by decide)
    (by decide)
  obtain rfl : arr = [1, 2] := Option.some.inj (harr'.symm.trans harr)
  exact ⟨harr, s, hr, h1, h2, hright s ⟨mixedRun, hr⟩ h1⟩

end MulticorePrac.MultiBfs.Program
