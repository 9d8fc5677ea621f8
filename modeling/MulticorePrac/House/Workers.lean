import MulticorePrac.House.Search

/-!
# All workers together

The invariant that ties the bitmaps to the results: a set bit means that the
distance of the two houses has been folded into the result of some worker
(`Recorded`).  A search may therefore stop when all its bits are set, whoever set
them, and a taken house is either being searched or complete.
-/

namespace MulticorePrac.House

/-- What a worker has folded so far, the search it is in included. -/
def Worker.soFar (l : Worker) : BFSResult :=
  if Searching l then l.total.merge l.result else l.total

/-- The distance of `a` and `b` is in the result of some worker. -/
def Recorded (p : Problem) (n : Nat) (s : St) (a b : Nat) : Prop :=
  ∃ d, At p.graph a d b ∧ ∃ w < n, (s.worker w).soFar.Covers d

/-- Every house connected to the house with index `k` is recorded with it. -/
def Complete (p : Problem) (n : Nat) (s : St) (k : Nat) : Prop :=
  ∀ v ∈ p.houses, v ≠ p.houseOf k → p.graph.Reachable (p.houseOf k) v →
    Recorded p n s (p.houseOf k) v

/-- `main` has joined the workers before `k`. -/
structure Joined (p : Problem) (s : St) (k : Nat) : Prop where
  done : ∀ w < k, (s.worker w).pc = .done
  sound : Sound p s.result
  covers : ∀ w < k, ∀ d, (s.worker w).total.Covers d → s.result.Covers d

def MainOk (p : Problem) (n : Nat) (s : St) : Prop :=
  match s.mainPc with
  | .join k => k ≤ n ∧ Joined p s k
  | .printed => Joined p s n

structure Inv (p : Problem) (n : Nat) (s : St) : Prop where
  bits : ∀ i j, (s.visitBitmap i).getLsbD j = true →
    i < p.houses.length ∧ j < p.houses.length ∧ Recorded p n s (p.houseOf i) (p.houseOf j)
  search : ∀ w < n, Searching (s.worker w) → SearchOk p (s.worker w)
  sound : ∀ w < n, Sound p (s.worker w).soFar
  claimed : ∀ k, k + 1 < p.houses.length → k < s.houseIndex →
    (∃ w < n, Searching (s.worker w) ∧ (s.worker w).houseIndex = k) ∨ Complete p n s k
  ended : ∀ w < n, (s.worker w).pc = .done → p.houses.length ≤ s.houseIndex + 1
  main : MainOk p n s

section
variable {p : Problem} {n : Nat} {s s' : St} {w : Nat} {l : Worker}

theorem soFar_of_searching (h : Searching l) : l.soFar = l.total.merge l.result := if_pos h

theorem soFar_of_not_searching (h : ¬ Searching l) : l.soFar = l.total := if_neg h

theorem Recorded.symm {a b : Nat} (h : Recorded p n s a b) : Recorded p n s b a := by
  obtain ⟨d, h1, h2⟩ := h
  exact ⟨d, h1.symm, h2⟩

/-- `s'` is `s` after a step that made worker `w` into `l`, and `l` has folded no less. -/
structure Moved (s s' : St) (w : Nat) (l : Worker) : Prop where
  worker : s'.worker = Function.update s.worker w l
  mainPc : s'.mainPc = s.mainPc
  result : s'.result = s.result
  index : s.houseIndex ≤ s'.houseIndex
  running : (s.worker w).pc ≠ .done
  covers : ∀ d, (s.worker w).soFar.Covers d → l.soFar.Covers d

theorem Moved.self (hm : Moved s s' w l) : s'.worker w = l := by
  rw [hm.worker, Function.update_self]

theorem Moved.other (hm : Moved s s' w l) {u : Nat} (hu : u ≠ w) : s'.worker u = s.worker u := by
  rw [hm.worker, Function.update_of_ne hu]

theorem Moved.recorded (hm : Moved s s' w l) {a b : Nat} (h : Recorded p n s a b) :
    Recorded p n s' a b := by
  obtain ⟨d, h1, u, hu, hc⟩ := h
  refine ⟨d, h1, u, hu, ?_⟩
  by_cases huw : u = w
  · subst huw
    rw [hm.self]
    exact hm.covers d hc
  · rw [hm.other huw]
    exact hc

theorem Moved.complete (hm : Moved s s' w l) {k : Nat} (h : Complete p n s k) : Complete p n s' k :=
  fun v hv hne hr => hm.recorded (h v hv hne hr)

theorem Moved.joined (hm : Moved s s' w l) {k : Nat} (h : Joined p s k) : Joined p s' k := by
  have hne : ∀ u < k, u ≠ w := by
    rintro u hu rfl
    exact hm.running (h.done u hu)
  refine ⟨fun u hu => ?_, ?_, fun u hu d hd => ?_⟩
  · rw [hm.other (hne u hu)]
    exact h.done u hu
  · rw [hm.result]
    exact h.sound
  · rw [hm.other (hne u hu)] at hd
    rw [hm.result]
    exact h.covers u hu d hd

/-- One step of a worker keeps the invariant if what it changes is right. -/
theorem Inv.move (h : Inv p n s) (hm : Moved s s' w l)
    (hbits : ∀ i j, (s'.visitBitmap i).getLsbD j = true → (s.visitBitmap i).getLsbD j = true ∨
      (i < p.houses.length ∧ j < p.houses.length ∧ Recorded p n s' (p.houseOf i) (p.houseOf j)))
    (hsearch : Searching l → SearchOk p l) (hsound : Sound p l.soFar)
    (hclaimed : ∀ k, k + 1 < p.houses.length → k < s'.houseIndex →
      (k < s.houseIndex ∧ ¬ (Searching (s.worker w) ∧ (s.worker w).houseIndex = k)) ∨
        (Searching l ∧ l.houseIndex = k ∧ w < n) ∨ Complete p n s' k)
    (hended : l.pc = .done → p.houses.length ≤ s'.houseIndex + 1) : Inv p n s' := by
  refine ⟨fun i j hij => ?_, fun u hu hs => ?_, fun u hu => ?_, fun k hk hks => ?_, fun u hu hd => ?_, ?_⟩
  · rcases hbits i j hij with hb | hb
    · obtain ⟨h1, h2, h3⟩ := h.bits i j hb
      exact ⟨h1, h2, hm.recorded h3⟩
    · exact hb
  · by_cases huw : u = w
    · subst huw
      rw [hm.self] at hs ⊢
      exact hsearch hs
    · rw [hm.other huw] at hs ⊢
      exact h.search u hu hs
  · by_cases huw : u = w
    · subst huw
      rw [hm.self]
      exact hsound
    · rw [hm.other huw]
      exact h.sound u hu
  · rcases hclaimed k hk hks with ⟨hlt, hnot⟩ | ⟨h1, h2, h3⟩ | hc
    · rcases h.claimed k hk hlt with ⟨u, hu, hs, hi⟩ | hc
      · have huw : u ≠ w := by
          rintro rfl
          exact hnot ⟨hs, hi⟩
        left
        refine ⟨u, hu, ?_⟩
        rw [hm.other huw]
        exact ⟨hs, hi⟩
      · exact Or.inr (hm.complete hc)
    · left
      refine ⟨w, h3, ?_⟩
      rw [hm.self]
      exact ⟨h1, h2⟩
    · exact Or.inr hc
  · by_cases huw : u = w
    · subst huw
      rw [hm.self] at hd
      exact hended hd
    · rw [hm.other huw] at hd
      have h1 := h.ended u hu hd
      have h2 := hm.index
      omega
  · have h1 := h.main
    unfold MainOk at h1 ⊢
    rw [hm.mainPc]
    cases hpc : s.mainPc with
    | join k => rw [hpc] at h1; exact ⟨h1.1, hm.joined h1.2⟩
    | printed => rw [hpc] at h1; exact hm.joined h1

/-- A step inside a search: only its own variables change, and not its results. -/
theorem Inv.moveSearch (h : Inv p n s) (hw : w < n) (hs : Searching (s.worker w))
    (hl : Searching l) (hok : SearchOk p l) (hh : l.houseIndex = (s.worker w).houseIndex)
    (htotal : l.total = (s.worker w).total) (hresult : l.result = (s.worker w).result) :
    Inv p n (s.setWorker w l) := by
  have hsf : l.soFar = (s.worker w).soFar := by
    rw [soFar_of_searching hs, soFar_of_searching hl, htotal, hresult]
  have hne : ∀ l : Worker, Searching l → l.pc ≠ .done := by
    rintro l (hl | hl) hd <;> rw [hl] at hd <;> cases hd
  refine h.move ⟨rfl, rfl, rfl, Nat.le_refl _, hne _ hs, fun d hd => by rw [hsf]; exact hd⟩
    (fun i j hij => Or.inl hij) (fun _ => hok) (by rw [hsf]; exact h.sound w hw)
    (fun k hk hks => ?_) (fun hd => absurd hd (hne l hl))
  by_cases hk' : (s.worker w).houseIndex = k
  · exact Or.inr (Or.inl ⟨hl, hh.trans hk', hw⟩)
  · exact Or.inl ⟨hks, fun hc => hk' hc.2⟩

/-! ## The steps -/

theorem inv_test (h : Inv p n s) (hw : w < n) (hpc : (s.worker w).pc = .test) {pc : WorkerPc}
    (hns : pc = .claim ∨ (pc = .done ∧ p.houses.length ≤ s.houseIndex + 1)) :
    Inv p n (s.setWorker w { s.worker w with pc := pc }) := by
  have hnot : ¬ Searching (s.worker w) := by
    intro hs
    rcases hs with hs | hs <;> rw [hpc] at hs <;> cases hs
  have hnot' : ¬ Searching { s.worker w with pc := pc } := by
    rintro (hs | hs) <;> rcases hns with hp | ⟨hp, -⟩ <;> rw [hp] at hs <;> cases hs
  have hsame : ({ s.worker w with pc := pc } : Worker).soFar = (s.worker w).soFar := by
    rw [soFar_of_not_searching hnot, soFar_of_not_searching hnot']
  refine h.move ⟨rfl, rfl, rfl, Nat.le_refl _, by simp [hpc], fun d hd => by rw [hsame]; exact hd⟩
    (fun i j hij => Or.inl hij) (fun hs => absurd hs hnot') (by rw [hsame]; exact h.sound w hw)
    (fun k hk hks => Or.inl ⟨hks, fun hc => hnot hc.1⟩) (fun hd => ?_)
  rcases hns with hp | ⟨_, hle⟩
  · rw [hp] at hd; cases hd
  · exact hle

theorem inv_claim (h : Inv p n s) (hw : w < n) (hpc : (s.worker w).pc = .claim) :
    Inv p n (if s.houseIndex + 1 < p.houses.length then
      ({ s with houseIndex := s.houseIndex + 1 }).setWorker w
        (({ s.worker w with houseIndex := s.houseIndex } : Worker).start p.context)
      else ({ s with houseIndex := s.houseIndex + 1 }).setWorker w
        { s.worker w with houseIndex := s.houseIndex, pc := .done }) := by
  have hnot : ¬ Searching (s.worker w) := by
    intro hs
    rcases hs with hs | hs <;> rw [hpc] at hs <;> cases hs
  have hsf := soFar_of_not_searching hnot
  have hsound := h.sound w hw
  rw [hsf] at hsound
  by_cases hlt : s.houseIndex + 1 < p.houses.length
  · rw [if_pos hlt]
    have hs' : Searching (({ s.worker w with houseIndex := s.houseIndex } : Worker).start p.context) :=
      Or.inl rfl
    have hsf' : (({ s.worker w with houseIndex := s.houseIndex } : Worker).start p.context).soFar =
        (s.worker w).total := by
      rw [soFar_of_searching hs']
      exact BFSResult.merge_empty hsound.min_le
    refine h.move ⟨rfl, rfl, rfl, Nat.le_succ _, by simp [hpc], fun d hd => ?_⟩
      (fun i j hij => Or.inl hij) (fun _ => searchOk_start hlt) (by rw [hsf']; exact hsound)
      (fun k hk hks => ?_) (fun hd => by cases hd)
    · rw [hsf']
      rwa [hsf] at hd
    · by_cases hk' : k = s.houseIndex
      · exact Or.inr (Or.inl ⟨hs', hk'.symm, hw⟩)
      · refine Or.inl ⟨?_, fun hc => hnot hc.1⟩
        simp only [St.setWorker] at hks
        omega
  · rw [if_neg hlt]
    have hnot' : ¬ Searching { s.worker w with houseIndex := s.houseIndex, pc := .done } := by
      rintro (hs | hs) <;> cases hs
    have hsf' := soFar_of_not_searching hnot'
    refine h.move ⟨rfl, rfl, rfl, Nat.le_succ _, by simp [hpc], fun d hd => ?_⟩
      (fun i j hij => Or.inl hij) (fun hs => absurd hs hnot') (by rw [hsf']; exact hsound)
      (fun k hk hks => ?_) (fun _ => ?_)
    · rw [hsf']
      rwa [hsf] at hd
    · refine Or.inl ⟨?_, fun hc => hnot hc.1⟩
      simp only [St.setWorker] at hks
      omega
    · simp only [St.setWorker]
      omega

/-- The end of a search: all bits are set, or no vertex is left. -/
theorem complete_of_end (h : Inv p n s) (hw : w < n) (hpc : (s.worker w).pc = .level)
    (hend : s.visitBitmap (s.worker w).startIndex =
      fullVisitBits (s.worker w).startIndex p.houses.length ∨ (s.worker w).next = []) :
    Complete p n s (s.worker w).houseIndex := by
  have hs : Searching (s.worker w) := Or.inl hpc
  have hok := h.search w hw hs
  intro v hv hne hr
  rw [← hok.start] at hne hr ⊢
  rcases hend with hfull | hnext
  · -- the bit of `v` is among the full bits
    have hj := p.index_lt hv
    have hj64 : p.context.houseIndexMap v < 64 := Nat.lt_of_lt_of_le hj p.houses_le
    have hji : p.context.houseIndexMap v ≠ (s.worker w).startIndex := by
      intro he
      apply hne
      rw [← p.houseOf_index hv, he, hok.houseOf_startIndex]
    have hbit : (s.visitBitmap (s.worker w).startIndex).getLsbD (p.context.houseIndexMap v) = true := by
      rw [hfull, getLsbD_fullVisitBits _ _ hj64]
      simp [hj, hji]
    have := (h.bits _ _ hbit).2.2
    rwa [hok.houseOf_startIndex, p.houseOf_index hv] at this
  · obtain ⟨d, h1, h2⟩ := hok.exhausted hpc hnext hv hne hr
    refine ⟨d, h1, w, hw, ?_⟩
    rw [soFar_of_searching hs]
    exact h2.merge_right _

theorem inv_nextLevel (h : Inv p n s) (hw : w < n) (hpc : (s.worker w).pc = .level) :
    Inv p n (nextLevel p.context s w) := by
  have hs : Searching (s.worker w) := Or.inl hpc
  have hok := h.search w hw hs
  have hsf := soFar_of_searching hs
  unfold nextLevel
  by_cases hgo : s.visitBitmap (s.worker w).startIndex ≠
      fullVisitBits (s.worker w).startIndex p.context.houses.length ∧ (s.worker w).next ≠ []
  · rw [if_pos hgo]
    exact h.moveSearch hw hs (Or.inr rfl) (hok.swap hpc) rfl rfl rfl
  · rw [if_neg hgo]
    have hend : s.visitBitmap (s.worker w).startIndex =
        fullVisitBits (s.worker w).startIndex p.houses.length ∨ (s.worker w).next = [] := by
      apply Classical.byContradiction
      intro hn
      simp only [not_or] at hn
      exact hgo hn
    have hcomp := complete_of_end h hw hpc hend
    have hnot' : ¬ Searching { s.worker w with
        pc := .test, total := (s.worker w).total.merge (s.worker w).result } := by
      rintro (hs | hs) <;> cases hs
    have hm : Moved s (s.setWorker w { s.worker w with
        pc := .test, total := (s.worker w).total.merge (s.worker w).result }) w
        { s.worker w with
          pc := .test, total := (s.worker w).total.merge (s.worker w).result } := by
      refine ⟨rfl, rfl, rfl, Nat.le_refl _, by simp [hpc], fun d hd => ?_⟩
      rw [soFar_of_not_searching hnot']
      rwa [hsf] at hd
    refine h.move hm (fun i j hij => Or.inl hij) (fun hs => absurd hs hnot') ?_
      (fun k hk hks => ?_) (fun hd => by cases hd)
    · rw [soFar_of_not_searching hnot']
      have := h.sound w hw
      rwa [hsf] at this
    · by_cases hk' : (s.worker w).houseIndex = k
      · subst hk'
        exact Or.inr (Or.inr (hm.complete hcomp))
      · exact Or.inl ⟨hks, fun hc => hk' hc.2⟩

theorem getLsbD_setVisitBits {bitmap : Nat → Bits} {start house i j : Nat}
    (h : (setVisitBits bitmap start house i).getLsbD j = true) :
    (bitmap i).getLsbD j = true ∨ (i = start ∧ j = house) ∨ (i = house ∧ j = start) := by
  unfold setVisitBits at h
  have hor : ∀ (x : Bits) (k : Nat), (x ||| gPow2 k).getLsbD j = true → x.getLsbD j = true ∨ j = k := by
    intro x k hx
    rw [BitVec.getLsbD_or, getLsbD_gPow2] at hx
    rcases Bool.or_eq_true_iff.mp hx with hx | hx
    · exact Or.inl hx
    · exact Or.inr (of_decide_eq_true (Bool.and_eq_true_iff.mp hx).2).symm
  have hstart : (Function.update bitmap start (bitmap start ||| gPow2 house) i).getLsbD j = true →
      (bitmap i).getLsbD j = true ∨ (i = start ∧ j = house) := by
    intro hx
    by_cases hi : i = start
    · subst hi
      rw [Function.update_self] at hx
      rcases hor _ _ hx with hx | hx
      · exact Or.inl hx
      · exact Or.inr ⟨rfl, hx⟩
    · rw [Function.update_of_ne hi] at hx
      exact Or.inl hx
  by_cases hi : i = house
  · subst hi
    rw [Function.update_self] at h
    rcases hor _ _ h with hx | hx
    · rcases hstart hx with hx | hx
      · exact Or.inl hx
      · exact Or.inr (Or.inl hx)
    · exact Or.inr (Or.inr ⟨rfl, hx⟩)
  · rw [Function.update_of_ne hi] at h
    rcases hstart h with hx | hx
    · exact Or.inl hx
    · exact Or.inr (Or.inl hx)

theorem inv_visitVertex (h : Inv p n s) (hw : w < n) (hpc : (s.worker w).pc = .visit) {v : Nat}
    {nbrs : List Nat} (hnbrs : (s.worker w).nbrs = v :: nbrs) :
    Inv p n (visitVertex p.context s w v nbrs) := by
  have hs : Searching (s.worker w) := Or.inr hpc
  have hok := h.search w hw hs
  have hsf := soFar_of_searching hs
  have hsound := h.sound w hw
  rw [hsf] at hsound
  unfold visitVertex
  by_cases hc : (s.worker w).checkMap v = true
  · simp only [if_pos hc]
    exact h.moveSearch hw hs (Or.inr hpc) (hok.skip hpc hnbrs hc) rfl rfl rfl
  · simp only [if_neg hc]
    have hcf : (s.worker w).checkMap v = false := by simpa using hc
    by_cases hb : p.context.houseBitmap v = true
    · -- a house: its distance is folded before the bits are set
      simp only [if_pos hb]
      have hvm := p.mem_houseBitmap.mp hb
      have hat := (hok.visit hpc).fresh (v := v) (by rw [hnbrs]; exact List.mem_cons_self) hcf
      have hne : (s.worker w).startHouse ≠ v := by
        intro he
        rw [← he] at hat
        have := hat.inj (at_zero.mpr rfl)
        omega
      -- the worker after the step
      obtain ⟨l', hl'⟩ : ∃ l' : Worker, l' = { s.worker w with
          nbrs := nbrs
          next := (s.worker w).next ++ [v]
          checkMap := Function.update (s.worker w).checkMap v true
          result := (s.worker w).result.update ((s.worker w).dist + 1) } := ⟨_, rfl⟩
      have hok' : SearchOk p l' := by
        rw [hl']
        exact hok.mark hpc hnbrs hcf (fun d hd => hd.update _) (fun _ => BFSResult.covers_update _ _)
      have hpc' : l'.pc = .visit := by rw [hl']; exact hpc
      have hh' : l'.houseIndex = (s.worker w).houseIndex := by rw [hl']
      have hsf' : l'.soFar =
          ((s.worker w).total.merge (s.worker w).result).update ((s.worker w).dist + 1) := by
        rw [soFar_of_searching (Or.inr hpc'), hl']
        exact BFSResult.merge_update _ _ _
      obtain ⟨bits, hbits⟩ : ∃ bits, bits =
          setVisitBits s.visitBitmap (s.worker w).startIndex (p.context.houseIndexMap v) := ⟨_, rfl⟩
      rw [← hl', ← hbits]
      have hm : Moved s { s.setWorker w l' with visitBitmap := bits } w l' := by
        refine ⟨rfl, rfl, rfl, Nat.le_refl _, by simp [hpc], fun d hd => ?_⟩
        rw [hsf']
        rw [hsf] at hd
        exact hd.update _
      have hrec : Recorded p n { s.setWorker w l' with visitBitmap := bits }
          (s.worker w).startHouse v := by
        refine ⟨_, hat, w, hw, ?_⟩
        rw [hm.self, hsf']
        exact BFSResult.covers_update _ _
      refine h.move hm (fun i j hij => ?_) (fun _ => ?_) ?_ (fun k hk hks => ?_) (fun hd => ?_)
      · have hi1 := hok.startIndex_lt
        have hi2 := p.index_lt hvm
        simp only [hbits] at hij
        rcases getLsbD_setVisitBits hij with hx | ⟨rfl, rfl⟩ | ⟨rfl, rfl⟩
        · exact Or.inl hx
        · refine Or.inr ⟨hi1, hi2, ?_⟩
          rw [hok.houseOf_startIndex, p.houseOf_index hvm]
          exact hrec
        · refine Or.inr ⟨hi2, hi1, ?_⟩
          rw [hok.houseOf_startIndex, p.houseOf_index hvm]
          exact hrec.symm
      · exact hok'
      · rw [hsf']
        exact hsound.update (mem_distances hok.start_mem hvm hne hat)
      · by_cases hk' : (s.worker w).houseIndex = k
        · exact Or.inr (Or.inl ⟨Or.inr hpc', hh'.trans hk', hw⟩)
        · exact Or.inl ⟨hks, fun hc => hk' hc.2⟩
      · exact absurd (hpc'.symm.trans hd) (by simp)
    · simp only [if_neg hb]
      have hvm : v ∉ p.houses := fun hv => hb (p.mem_houseBitmap.mpr hv)
      exact h.moveSearch hw hs (Or.inr hpc)
        (hok.mark hpc hnbrs hcf (fun d hd => hd) (fun hv => absurd hv hvm)) rfl rfl rfl

theorem inv_worker (h : Inv p n s) (hw : w < n) (hs : workerStep p.context s w = some s') :
    Inv p n s' := by
  cases hpc : (s.worker w).pc with
  | test =>
    simp only [workerStep, hpc] at hs
    by_cases hlt : s.houseIndex + 1 < p.context.houses.length
    · rw [if_pos hlt] at hs
      cases hs
      exact inv_test h hw hpc (Or.inl rfl)
    · rw [if_neg hlt] at hs
      cases hs
      exact inv_test h hw hpc (Or.inr ⟨rfl, Nat.le_of_not_lt hlt⟩)
  | claim =>
    simp only [workerStep, hpc] at hs
    have hinv := inv_claim h hw hpc
    by_cases hlt : s.houseIndex + 1 < p.houses.length
    · rw [if_pos hlt] at hinv
      rw [if_pos (show s.houseIndex + 1 < p.context.houses.length from hlt)] at hs
      cases hs
      exact hinv
    · rw [if_neg hlt] at hinv
      rw [if_neg (show ¬ s.houseIndex + 1 < p.context.houses.length from hlt)] at hs
      cases hs
      exact hinv
  | level =>
    simp only [workerStep, hpc] at hs
    cases hs
    exact inv_nextLevel h hw hpc
  | visit =>
    have hsrch : Searching (s.worker w) := Or.inr hpc
    have hok := h.search w hw hsrch
    cases hn : (s.worker w).nbrs with
    | cons v nbrs =>
      rw [workerStep_visit hpc hn] at hs
      cases hs
      exact inv_visitVertex h hw hpc hn
    | nil =>
      cases hc : (s.worker w).cur with
      | cons v cur =>
        rw [workerStep_vertex hpc hn hc] at hs
        cases hs
        exact h.moveSearch hw hsrch (Or.inr hpc) (hok.vertex hpc hn hc) rfl rfl rfl
      | nil =>
        rw [workerStep_endLevel hpc hn hc] at hs
        cases hs
        exact h.moveSearch hw hsrch (Or.inl rfl) (hok.endLevel hpc hn hc) rfl rfl rfl
  | done => simp only [workerStep, hpc] at hs; cases hs

end

end MulticorePrac.House
