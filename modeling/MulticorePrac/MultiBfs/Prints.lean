import MulticorePrac.MultiBfs.Ends
import MulticorePrac.MultiBfs.Program

/-!
# Project1: the whole program ends

`prints_fair`: under every schedule that comes back to `main`, to each house worker and to
each thread of its searches, `main` prints, and prints the answer.  What is left to do
(`total`) is a bound for each house that is not taken, and what is left of each search: that
of `House` with one thread, and that of `MultiBfs` with more.  A bit that another search
sets can only end a search earlier.  Every search is taken to get its buffers from the pool.
-/

namespace MulticorePrac.MultiBfs.Program

open House (Bits Problem gPow2 workerStep mainStep searchBound numThreadsPerWorkerArr)

/-- What worker `w` with `n` threads has left to do. -/
def workLeft (p : Problem) (n : Nat) (s : Prog) (w : Nat) : Nat :=
  let l := s.base.worker w
  if n = 1 then l.left p
  else
    match l.pc with
    | .test => 2
    | .claim => 1
    | .level => 3 + left p l.startHouse n (s.load w)
    | .visit | .done => 0

/-- A bound for a search with at most 64 threads. -/
def multiBound (p : Problem) : Nat := 64 * (118 * (p.numVertices + 1) + 1) + 173

/-- A bound for a search of either kind. -/
def bound (p : Problem) : Nat := searchBound p + multiBound p

def total (p : Problem) (arr : List Nat) (s : Prog) : Nat :=
  bound p * (p.houses.length - s.base.houseIndex) +
    ∑ w ∈ Finset.range arr.length, workLeft p (arr.getD w 1) s w + s.base.mainPc.left arr.length

/-- The actions that bring the program nearer to its end. -/
def HelpsProg (arr : List Nat) (s : Prog) : Act → Prop
  | .main =>
    match s.base.mainPc with
    | .join k => k < arr.length → (s.base.worker k).pc = .done
    | .printed => False
  | .house w => ∃ n, arr[w]? = some n ∧
      ((n = 1 ∧ (s.base.worker w).pc ≠ .done) ∨
        (n ≠ 1 ∧ ((s.base.worker w).pc = .test ∨ (s.base.worker w).pc = .claim ∨
          ((s.base.worker w).pc = .level ∧
            ((s.search w).mainPc = .returned ∨ Helps n (s.load w) .main)))))
  | .child w u => ∃ n, arr[w]? = some n ∧
      n ≠ 1 ∧ (s.base.worker w).pc = .level ∧ Helps n (s.load w) (.worker u)

def turnsProg (s : Prog) : Act → Nat
  | .child w u => turns (s.load w) u
  | _ => 0

section
variable {p : Problem} {arr : List Nat} {s s' : Prog} {w n : Nat}

/-! ## Sums over the house workers -/

/-- A bit that is set can only end a search earlier. -/
theorem workLeft_keep (hindex : (s.base.worker w).pc = .level →
      (s.base.worker w).startIndex = p.context.houseIndexMap (s.base.worker w).startHouse)
    (hworker : s'.base.worker w = s.base.worker w) (hsearch : s'.search w = s.search w)
    (hrows : Rows p s.base.visitBitmap s'.base.visitBitmap) :
    workLeft p n s' w ≤ workLeft p n s w := by
  unfold workLeft
  rw [hworker]
  dsimp only
  split
  · exact Nat.le_refl _
  · cases hpc : (s.base.worker w).pc <;> dsimp only
    case level =>
      refine Nat.add_le_add_left (left_of_stop (fun hstop => ?_) ?_ ?_ ?_ ?_) 3
      · unfold Prog.load
        unfold Stopped at hstop ⊢
        dsimp only [Prog.load] at hstop ⊢
        rw [hworker]
        rcases hrows (s.base.worker w).startIndex with hrow | ⟨j, hj, hne, hrow⟩
        · rw [hrow]
          exact hstop
        · rw [hrow]
          exact stopped_or hj (hindex hpc ▸ hne) hstop
      all_goals
        unfold Prog.load
        rw [hsearch]
    all_goals exact Nat.le_refl _

/-- One worker comes down, a house may be taken. -/
theorem total_lt (hw : w < arr.length)
    (hle : ∀ v < arr.length, v ≠ w → ∀ n, workLeft p n s' v ≤ workLeft p n s v)
    (hlt : bound p * (p.houses.length - s'.base.houseIndex) + workLeft p (arr.getD w 1) s' w <
      bound p * (p.houses.length - s.base.houseIndex) + workLeft p (arr.getD w 1) s w)
    (hm : s'.base.mainPc = s.base.mainPc) : total p arr s' < total p arr s := by
  have hmem : w ∈ Finset.range arr.length := Finset.mem_range.mpr hw
  have hrest : ∑ v ∈ (Finset.range arr.length).erase w, workLeft p (arr.getD v 1) s' v ≤
      ∑ v ∈ (Finset.range arr.length).erase w, workLeft p (arr.getD v 1) s v :=
    Finset.sum_le_sum fun v hv => hle v (Finset.mem_range.mp (Finset.mem_of_mem_erase hv))
      (Finset.ne_of_mem_erase hv) _
  unfold total
  rw [hm, ← Finset.add_sum_erase _ _ hmem, ← Finset.add_sum_erase _ _ hmem]
  omega

theorem getD_of_get (h : arr[w]? = some n) : arr.getD w 1 = n := by
  rw [List.getD_eq_getElem?_getD, h]
  rfl

/-! ## `BFSThread` -/

/-- A step of `BFSThread` with one thread. -/
theorem left_house {b : House.St} {N : Nat} (h : House.Inv p N s.base) (hw : w < N)
    (hs : workerStep p.context s.base w = some b) :
    bound p * (p.houses.length - b.houseIndex) + (b.worker w).left p <
      bound p * (p.houses.length - s.base.houseIndex) + (s.base.worker w).left p := by
  obtain ⟨hidx, hm, l, hl⟩ := frame_workerStep hs
  have hlt := House.left_worker h hw hs
  have hsum := Machine.sum_update (fun l : House.Worker => l.left p) s.base.worker hw l
  have hmul : multiBound p * (p.houses.length - b.houseIndex) ≤
      multiBound p * (p.houses.length - s.base.houseIndex) := Nat.mul_le_mul_left _ (by omega)
  have hsplit : ∀ k, bound p * k = searchBound p * k + multiBound p * k := fun k => Nat.add_mul ..
  unfold House.left at hlt
  rw [hm, hl] at hlt
  rw [hl, Function.update_self, hsplit, hsplit]
  omega

theorem left_begins (start : Nat) (b : Bits) (hn : 0 < n) (hn' : n ≤ 64) :
    3 + left p start n { initial start with visitBits := b } ≤ multiBound p := by
  have hinit := left_initial p start n b hn
  have hmul : n * ((n + 54) * (p.numVertices + 1) + 1) ≤ 64 * (118 * (p.numVertices + 1) + 1) :=
    Nat.mul_le_mul hn' (Nat.add_le_add_right (Nat.mul_le_mul_right _ (by omega)) 1)
  unfold multiBound
  omega

/-- The other workers have no more to do than before. -/
theorem Inv.others_left (h : Inv p arr s) (hworker : ∀ v, v ≠ w → s'.base.worker v = s.base.worker v)
    (hsearch : ∀ v, v ≠ w → s'.search v = s.search v)
    (hrows : Rows p s.base.visitBitmap s'.base.visitBitmap) :
    ∀ v < arr.length, v ≠ w → ∀ n, workLeft p n s' v ≤ workLeft p n s v :=
  fun v hlt hv _ => workLeft_keep (fun hpc => (h.base.search v hlt (Or.inl hpc)).startIndex)
    (hworker v hv) (hsearch v hv) hrows

/-- A step of `BFSThread` outside of a search, or with one thread. -/
theorem total_house (h : Inv p arr s) {b : House.St} (hw : w < arr.length)
    (hs : workerStep p.context s.base w = some b) (f : Nat → St)
    (hf : ∀ v, v ≠ w → f v = s.search v)
    (hlt : bound p * (p.houses.length - b.houseIndex) + workLeft p (arr.getD w 1) ⟨b, f⟩ w <
      bound p * (p.houses.length - s.base.houseIndex) + workLeft p (arr.getD w 1) s w) :
    total p arr ⟨b, f⟩ < total p arr s := by
  obtain ⟨-, hm, l, hl⟩ := frame_workerStep hs
  refine total_lt hw (h.others_left (fun v hv => ?_) hf (rows_workerStep h.base hw hs)) hlt hm
  show b.worker v = _
  rw [hl, Function.update_of_ne hv]

/-- A house is taken, and pays for the search from it. -/
theorem total_begins (h : Inv p arr s) {b : House.St} (harr : arr[w]? = some n) (hone : n ≠ 1)
    (hn : 0 < n) (hn' : n ≤ 64) (hpc : (s.base.worker w).pc = .claim)
    (hs : workerStep p.context s.base w = some b) :
    total p arr ⟨b, Function.update s.search w (initial (b.worker w).startHouse)⟩ <
      total p arr s := by
  have hw : w < arr.length := (List.getElem?_eq_some_iff.mp harr).1
  refine total_house h hw hs _ (fun v hv => Function.update_of_ne hv _ _) ?_
  rw [getD_of_get harr]
  have hold : workLeft p n s w = 1 := by simp only [workLeft, if_neg hone, hpc]
  obtain ⟨hidx, hcase⟩ := claim_worker hpc hs
  have hmono : bound p * (p.houses.length - b.houseIndex) ≤
      bound p * (p.houses.length - s.base.houseIndex) := Nat.mul_le_mul_left _ (by omega)
  rw [hold]
  rcases hcase with hdone | ⟨hlt, hlevel, -⟩
  · simp only [workLeft, if_neg hone, hdone]
    omega
  · have hpay : bound p * (p.houses.length - b.houseIndex) + bound p =
        bound p * (p.houses.length - s.base.houseIndex) := by
      rw [← Nat.mul_succ]
      congr 1
      omega
    have hnew : workLeft p n
        ⟨b, Function.update s.search w (initial (b.worker w).startHouse)⟩ w ≤ multiBound p := by
      simp only [workLeft, if_neg hone, hlevel, load_begins]
      exact left_begins _ _ hn hn'
    have hle : multiBound p ≤ bound p := Nat.le_add_left _ _
    omega

/-- A step of the search of a worker. -/
theorem total_searchStep {a : MultiBfs.Act} {t : St} (h : Inv p arr s) (harr : arr[w]? = some n)
    (hone : n ≠ 1) (hn : 0 < n) (hn' : n ≤ 64) (hpc : (s.base.worker w).pc = .level)
    (ha : ∀ j, a ≠ .other j) (ht : step p (s.base.worker w).startHouse n (s.load w) a = some t)
    (hlt : left p (s.base.worker w).startHouse n t <
      left p (s.base.worker w).startHouse n (s.load w)) :
    total p arr (s.store w (wrote p s.base.visitBitmap (s.base.worker w).startIndex (s.load w) a) t) <
      total p arr s := by
  have hw : w < arr.length := (List.getElem?_eq_some_iff.mp harr).1
  obtain ⟨-, -, hrows, hload⟩ := inv_store h.base hw hpc (h.search w n harr hone hpc) hn hn' ha ht
  refine total_lt hw (h.others_left (fun v hv => Function.update_of_ne hv _ _)
    (fun v hv => Function.update_of_ne hv _ _) hrows) ?_ rfl
  refine Nat.add_lt_add_left ?_ _
  rw [getD_of_get harr]
  unfold workLeft
  rw [hload]
  simp only [if_neg hone, Prog.store, House.St.setWorker, Function.update_self, hpc]
  omega

theorem total_multiStep (h : Inv p arr s) (harr : arr[w]? = some n) (hone : n ≠ 1) (hn : 0 < n)
    (hn' : n ≤ 64) (hs : multiStep p n s w = some s') : total p arr s' < total p arr s := by
  have hw : w < arr.length := (List.getElem?_eq_some_iff.mp harr).1
  unfold multiStep at hs
  cases hpc : (s.base.worker w).pc <;> simp only [hpc] at hs
  case claim =>
    obtain ⟨b, hb, rfl⟩ := Option.map_eq_some_iff.mp hs
    exact total_begins h harr hone hn hn' hpc hb
  case level =>
    split at hs
    · cases hs
      refine total_lt hw (h.others_left (fun v hv => Function.update_of_ne hv _ _) (fun v _ => rfl)
        (Rows.refl p _)) (Nat.add_lt_add_left ?_ _) rfl
      rw [getD_of_get harr]
      simp only [workLeft, House.St.setWorker, Function.update_self, if_neg hone, hpc]
      omega
    · obtain ⟨t, ht, rfl⟩ := Option.map_eq_some_iff.mp hs
      obtain ⟨-, o, hr⟩ := h.search w n harr hone hpc
      have hok := h.base.search w hw (Or.inl hpc)
      have hlt := left_run (workInv_of_reachable hok.start_mem hn hn' hr) hn
        (step_otherBits o (fun _ hc => by cases hc) ht)
      exact total_searchStep h harr hone hn hn' hpc (fun _ hc => by cases hc) ht hlt
  case visit => exact absurd hpc (h.never w n harr hone)
  case done =>
    obtain ⟨b, hb, rfl⟩ := Option.map_eq_some_iff.mp hs
    simp only [workerStep, hpc] at hb
    cases hb
  case test =>
    obtain ⟨b, hb, rfl⟩ := Option.map_eq_some_iff.mp hs
    refine total_house h hw hb _ (fun _ _ => rfl) ?_
    have hlt := left_house h.base hw hb
    rw [getD_of_get harr]
    simp only [workerStep, hpc] at hb
    split at hb <;> cases hb <;>
      simp [workLeft, House.St.setWorker, Function.update_self, hone, hpc]

theorem total_main (hs : stepOf p arr s .main = some s') : total p arr s' < total p arr s := by
  obtain ⟨b, hb, rfl⟩ := Option.map_eq_some_iff.mp hs
  have hlt := House.left_main (p := p) hb
  have hframe : b.worker = s.base.worker ∧ b.visitBitmap = s.base.visitBitmap ∧
      b.houseIndex = s.base.houseIndex := by
    unfold mainStep at hb
    repeat' split at hb
    all_goals first | (cases hb; exact ⟨rfl, rfl, rfl⟩) | cases hb
  obtain ⟨hworker, hbits, hidx⟩ := hframe
  unfold House.left at hlt
  rw [hworker, hidx] at hlt
  have hsame : ∀ n v, workLeft p n { s with base := b } v = workLeft p n s v := by
    intro n v
    simp only [workLeft, Prog.load, hworker, hbits]
  unfold total
  simp only [hsame, hidx]
  omega

/-! ## Who helps -/

theorem helpsProg_enabled {a : Act} (h : HelpsProg arr s a) :
    ∃ s', stepOf p arr s a = some s' := by
  cases a with
  | main =>
    unfold HelpsProg at h
    simp only [stepOf, mainStep]
    cases hm : s.base.mainPc with
    | printed => rw [hm] at h; exact h.elim
    | join k =>
      rw [hm] at h
      dsimp only
      split
      · next hk =>
        simp only [h hk]
        exact ⟨_, rfl⟩
      · exact ⟨_, rfl⟩
  | house w =>
    obtain ⟨n, harr, hcase⟩ := h
    simp only [stepOf, harr]
    rcases hcase with ⟨hone, hpc⟩ | ⟨hone, hpc⟩
    · obtain ⟨b, hb⟩ := House.worker_moves p.context hpc
      rw [if_pos hone, hb]
      exact ⟨_, rfl⟩
    · rw [if_neg hone]
      unfold multiStep
      rcases hpc with hpc | hpc | ⟨hpc, hret⟩
      · obtain ⟨b, hb⟩ := House.worker_moves (s := s.base) (w := w) p.context (by rw [hpc]; decide)
        simp only [hpc, hb]
        exact ⟨_, rfl⟩
      · obtain ⟨b, hb⟩ := House.worker_moves (s := s.base) (w := w) p.context (by rw [hpc]; decide)
        simp only [hpc, hb]
        exact ⟨_, rfl⟩
      · simp only [hpc]
        split
        · exact ⟨_, rfl⟩
        · next hnot =>
          obtain ⟨t, ht⟩ := helps_enabled (p := p) (hret.resolve_left hnot)
          unfold searchStep
          dsimp only
          rw [ht]
          exact ⟨_, rfl⟩
  | child w u =>
    obtain ⟨n, harr, hone, hpc, hhelps⟩ := h
    simp only [stepOf, harr, if_pos (And.intro hone hpc)]
    obtain ⟨t, ht⟩ := helps_enabled (p := p) hhelps
    unfold searchStep
    dsimp only
    rw [ht]
    exact ⟨_, rfl⟩

/-- `main`, the house workers and the threads of their searches. -/
def OursProg (arr : List Nat) : Act → Prop
  | .main => True
  | .house w => w < arr.length
  | .child w u => ∃ n, arr[w]? = some n ∧ n ≠ 1 ∧ u < n

theorem exists_helpsProg (hfits : Fits arr) (h : Inv p arr s) (hnot : s.base.mainPc ≠ .printed) :
    ∃ a, OursProg arr a ∧ HelpsProg arr s a := by
  cases hm : s.base.mainPc with
  | printed => exact absurd hm hnot
  | join k =>
    by_cases hk : k < arr.length → (s.base.worker k).pc = .done
    · exact ⟨.main, trivial, by simpa only [HelpsProg, hm] using hk⟩
    obtain ⟨hk, hdone⟩ := Classical.not_imp.mp hk
    obtain ⟨n, harr⟩ : ∃ n, arr[k]? = some n := ⟨_, List.getElem?_eq_getElem hk⟩
    obtain ⟨hn, hn'⟩ := hfits n (List.mem_of_getElem? harr)
    by_cases hone : n = 1
    · exact ⟨.house k, hk, n, harr, Or.inl ⟨hone, hdone⟩⟩
    cases hpc : (s.base.worker k).pc with
    | done => exact absurd hpc hdone
    | visit => exact absurd hpc (h.never k n harr hone)
    | test => exact ⟨.house k, hk, n, harr, Or.inr ⟨hone, Or.inl hpc⟩⟩
    | claim => exact ⟨.house k, hk, n, harr, Or.inr ⟨hone, Or.inr (Or.inl hpc)⟩⟩
    | level =>
      by_cases hret : (s.search k).mainPc = .returned
      · exact ⟨.house k, hk, n, harr, Or.inr ⟨hone, Or.inr (Or.inr ⟨hpc, Or.inl hret⟩)⟩⟩
      obtain ⟨-, o, hr⟩ := h.search k n harr hone hpc
      have hok := h.base.search k hk (Or.inl hpc)
      obtain ⟨a, ha, hhelps⟩ := exists_helps (searchInv_of_reachable hok.start_mem hn hn' hr) hret
      rcases ha with rfl | ⟨u, hu, rfl⟩
      · exact ⟨.house k, hk, n, harr, Or.inr ⟨hone, Or.inr (Or.inr ⟨hpc, Or.inr hhelps⟩)⟩⟩
      · exact ⟨.child k u, ⟨n, harr, hone, hu⟩, n, harr, hone, hpc, hhelps⟩

/-- A test in vain in the search of worker `w`. -/
theorem retest_child {u : Nat} {t : St} (h : Inv p arr s) (harr : arr[w]? = some n) (hone : n ≠ 1)
    (hn : 0 < n) (hn' : n ≤ 64) (hpc : (s.base.worker w).pc = .level)
    (hretests : retests n (s.load w) u = true)
    (ht : step p (s.base.worker w).startHouse n (s.load w) (.worker u) = some t) :
    let s' := s.store w
      (wrote p s.base.visitBitmap (s.base.worker w).startIndex (s.load w) (.worker u)) t
    s'.base = s.base ∧ s'.load w = t ∧ (∀ v, v ≠ w → s'.load v = s.load v) ∧
      t.mainPc = (s.search w).mainPc ∧ left p (s.base.worker w).startHouse n t =
        left p (s.base.worker w).startHouse n (s.load w) := by
  intro s'
  have hw : w < arr.length := (List.getElem?_eq_some_iff.mp harr).1
  have hin := h.search w n harr hone hpc
  obtain ⟨-, -, -, hload⟩ := inv_store h.base hw hpc hin hn hn' (fun _ hc => by cases hc) ht
  have hstep : beginWorkAt p (s.base.worker w).startHouse n (s.load w) u = some t := by
    simp only [step] at ht
    split at ht
    · exact ht
    · cases ht
  obtain ⟨l, hl, hleft⟩ := retest_worker hretests hstep
  have hnobits : ((s.load w).worker u).pc ≠ .setBits := by
    intro hc
    simp [retests, hc] at hretests
  have hbase : s'.base = s.base := by
    have hworker : ({ s.base.worker w with result := t.result } : House.Worker) =
        s.base.worker w := by
      rw [hl, hin.frozen]
      rfl
    show ({ s.base.setWorker w { s.base.worker w with result := t.result } with
      visitBitmap := wrote p _ _ _ _ } : House.St) = s.base
    rw [hworker, show wrote p s.base.visitBitmap (s.base.worker w).startIndex (s.load w)
      (.worker u) = s.base.visitBitmap from if_neg hnobits]
    unfold House.St.setWorker
    rw [Function.update_eq_self]
  refine ⟨hbase, hload, fun v hv => ?_, by rw [hl]; rfl, hleft⟩
  unfold Prog.load
  rw [hbase, show s'.search v = s.search v from Function.update_of_ne hv _ _]

theorem total_retest (hbase : s'.base = s.base) (hother : ∀ v, v ≠ w → s'.load v = s.load v)
    (harr : arr[w]? = some n) (hleft : left p (s.base.worker w).startHouse n (s'.load w) =
      left p (s.base.worker w).startHouse n (s.load w)) : total p arr s' = total p arr s := by
  unfold total
  rw [hbase]
  refine congrArg (fun x => _ + x + _) (Finset.sum_congr rfl fun v _ => ?_)
  unfold workLeft
  rw [hbase]
  by_cases hv : v = w
  · subst hv
    dsimp only
    rw [getD_of_get harr, hleft]
  · rw [hother v hv]

/-- It leaves every action that helps as helpful as it was. -/
theorem helpsProg_retest {u : Nat} {t : St} {a : Act} (harr : arr[w]? = some n)
    (hbase : s'.base = s.base) (hload : s'.load w = t) (hsearch : ∀ v, v ≠ w → s'.search v = s.search v)
    (hself : (s'.search w).mainPc = (s.search w).mainPc)
    (hretests : retests n (s.load w) u = true)
    (ht : beginWorkAt p (s.base.worker w).startHouse n (s.load w) u = some t)
    (ha : HelpsProg arr s a) : HelpsProg arr s' a ∧ turnsProg s' a ≤ turnsProg s a ∧
      (.child w u = a → turnsProg s' a < turnsProg s a) := by
  have hother : ∀ v, v ≠ w → s'.load v = s.load v := by
    intro v hv
    unfold Prog.load
    rw [hbase, hsearch v hv]
  cases a with
  | main =>
    refine ⟨?_, Nat.le_refl _, nofun⟩
    unfold HelpsProg at ha ⊢
    rw [hbase]
    exact ha
  | house v =>
    refine ⟨?_, Nat.le_refl _, nofun⟩
    by_cases hv : v = w
    · subst hv
      unfold HelpsProg
      rw [hbase]
      obtain ⟨n', hn', hcase⟩ := ha
      obtain rfl : n = n' := Option.some.inj (harr.symm.trans hn')
      refine ⟨n, harr, hcase.imp_right fun ⟨hone, hpc⟩ => ⟨hone, ?_⟩⟩
      refine hpc.imp_right fun hpc => hpc.imp_right fun ⟨hlevel, hret⟩ => ⟨hlevel, ?_⟩
      rw [hself, hload]
      exact hret.imp_right fun hmain => (helps_retest hretests hmain ht).1
    · simp only [HelpsProg, hbase, hsearch v hv, hother v hv] at ha ⊢
      exact ha
  | child v u' =>
    by_cases hv : v = w
    · subst hv
      obtain ⟨n', hn', hone, hlevel, hhelps⟩ := ha
      obtain rfl : n = n' := Option.some.inj (harr.symm.trans hn')
      obtain ⟨h1, h2, h3⟩ := helps_retest hretests hhelps ht
      rw [← hload] at h1 h2 h3
      refine ⟨⟨n, harr, hone, by rw [hbase]; exact hlevel, h1⟩, h2, fun hc => h3 ?_⟩
      cases hc
      rfl
    · simp only [HelpsProg, turnsProg, hbase, hother v hv] at ha ⊢
      exact ⟨ha, Nat.le_refl _, fun hc => absurd (Act.child.inj hc).1.symm hv⟩

theorem helpsProg_step (hfits : Fits arr) {a b : Act} (h : Inv p arr s) (ha : HelpsProg arr s a)
    (hs : stepOf p arr s b = some s') :
    total p arr s' < total p arr s ∨ (total p arr s' ≤ total p arr s ∧ HelpsProg arr s' a ∧
      turnsProg s' a ≤ turnsProg s a ∧ (b = a → turnsProg s' a < turnsProg s a)) := by
  cases b with
  | main => exact Or.inl (total_main hs)
  | house w =>
    refine Or.inl ?_
    simp only [stepOf] at hs
    split at hs
    · cases hs
    · next n harr =>
      obtain ⟨hn, hn'⟩ := hfits n (List.mem_of_getElem? harr)
      split at hs
      · next hone =>
        obtain ⟨b, hb, rfl⟩ := Option.map_eq_some_iff.mp hs
        have hw : w < arr.length := (List.getElem?_eq_some_iff.mp harr).1
        refine total_house h hw hb _ (fun _ _ => rfl) ?_
        rw [getD_of_get harr]
        simp only [workLeft, if_pos hone]
        exact left_house h.base hw hb
      · next hone => exact total_multiStep h harr hone hn hn' hs
  | child w u =>
    simp only [stepOf] at hs
    split at hs
    · cases hs
    · next n harr =>
      obtain ⟨hn, hn'⟩ := hfits n (List.mem_of_getElem? harr)
      split at hs
      · next hc =>
        obtain ⟨hone, hpc⟩ := hc
        obtain ⟨t, ht, rfl⟩ := Option.map_eq_some_iff.mp hs
        obtain ⟨hu, hstep⟩ : (u < n ∧ _) ∧
            beginWorkAt p (s.base.worker w).startHouse n (s.load w) u = some t := by
          simp only [step] at ht
          split at ht
          · next hu => exact ⟨hu, ht⟩
          · cases ht
        cases hretests : retests n (s.load w) u with
        | false =>
          obtain ⟨-, o, hr⟩ := h.search w n harr hone hpc
          have hok := h.base.search w (List.getElem?_eq_some_iff.mp harr).1 (Or.inl hpc)
          have hinv := workInv_of_reachable hok.start_mem hn hn' hr
          have hstep' := step_otherBits o (fun _ hc => by cases hc) ht
          have hlt : left p (s.base.worker w).startHouse n { t with otherBits := o } <
              left p (s.base.worker w).startHouse n { s.load w with otherBits := o } := by
            refine left_worker hinv hok.start_mem hu.1 hretests ?_
            simp only [step] at hstep'
            rw [if_pos hu] at hstep'
            exact hstep'
          exact Or.inl (total_searchStep h harr hone hn hn' hpc (fun _ hc => by cases hc) ht hlt)
        | true =>
          obtain ⟨hbase, hload, hother, hmain, hleft⟩ :=
            retest_child h harr hone hn hn' hpc hretests ht
          refine Or.inr ⟨Nat.le_of_eq (total_retest hbase hother harr ?_), ?_⟩
          · rw [hload]
            exact hleft
          · refine helpsProg_retest harr hbase hload (fun v hv => Function.update_of_ne hv _ _) ?_
              hretests hstep ha
            show (Function.update s.search w t w).mainPc = _
            rw [Function.update_self]
            exact hmain
      · cases hs

end

/-- **The program prints the answer**, with any number of cores up to 64 for each house, under
every schedule that is fair to `main`, to the house workers and to the threads of their searches,
when these get their buffers. -/
theorem prints_fair (p : Problem) {numCores : Nat} (hh : 0 < p.houses.length) (hc : 0 < numCores)
    (hcores : numCores ≤ 64 * p.houses.length) :
    ∃ arr, numThreadsPerWorkerArr numCores p.houses.length = some arr ∧
      ∀ f : Nat → Act, Machine.Fair (OursProg arr) f →
        ∃ k, ((program p arr).states f k).base.mainPc = .printed ∧
          House.IsAnswer p ((program p arr).states f k).base.result := by
  obtain ⟨arr, harr, hfits, hlen⟩ := exists_arr hh hc hcores
  refine ⟨arr, harr, fun f hf => ?_⟩
  obtain ⟨k, -, hk⟩ := Machine.leadsTo (M := program p arr) hf (Inv p arr)
    (fun s => s.base.mainPc = .printed) (HelpsProg arr) (total p arr) turnsProg
    (fun s b s' h _ hs => inv_step hfits h hs)
    (fun s h hnot => exists_helpsProg hfits h hnot)
    (fun s a _ _ ha => helpsProg_enabled ha)
    (fun s a b s' h _ ha hs => helpsProg_step hfits h ha hs)
    0 (inv_initial p arr)
  exact ⟨k, hk, answer_of_printed
    (inv_of_reachable hfits (Machine.reachable_states f k)) hlen hk⟩

/-- One worker with one thread and one with two, all in turn. -/
theorem prints_fair_roundRobin :
    ∃ k, ((program forkProblem [1, 2]).states
      (Machine.roundRobin .main [.house 0, .house 1, .child 1 0, .child 1 1]) k).base.mainPc =
        .printed ∧
      House.IsAnswer forkProblem ((program forkProblem [1, 2]).states
        (Machine.roundRobin .main [.house 0, .house 1, .child 1 0, .child 1 1]) k).base.result := by
  have harr : numThreadsPerWorkerArr 3 forkProblem.houses.length = some [1, 2] := by
    decide +kernel
  obtain ⟨arr, harr', hfair⟩ := prints_fair forkProblem (by decide) (show 0 < 3 by decide)
    (by decide)
  obtain rfl : arr = [1, 2] := Option.some.inj (harr'.symm.trans harr)
  refine hfair _ ((Machine.fair_roundRobin _ _).mono fun a ha => ?_)
  cases a with
  | main => exact List.mem_cons_self
  | house w =>
    have hw : w < 2 := ha
    obtain rfl | rfl : w = 0 ∨ w = 1 := by omega
    · decide
    · decide
  | child w u =>
    obtain ⟨n, hn, hone, hu⟩ := ha
    have hw : w < 2 := (List.getElem?_eq_some_iff.mp hn).1
    obtain rfl | rfl : w = 0 ∨ w = 1 := by omega
    · exact absurd (Option.some.inj hn).symm hone
    · cases Option.some.inj hn
      obtain rfl | rfl : u = 0 ∨ u = 1 := by omega
      · decide
      · decide

end MulticorePrac.MultiBfs.Program
