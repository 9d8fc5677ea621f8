import MulticorePrac.Lib.Atomic

/-!
# Threads with workloads of their own

Thread `t` calls the operations of the list `work t` in order (`Works`).  In a linearization
its operations then stand in that order (`Linearization.ops_of_thread`).

When each thread uses a part of the object of its own (`Splits`), it cannot tell whether the
others are there: every call returns what it returns when the thread is alone, and when it
has done all its work its part is as it leaves it alone (`Linearization.alone`).
-/

namespace MulticorePrac

section
variable {σ ω ρ : Type} {O : Object σ ω ρ}

/-! ## An object in parts -/

/-- `view t` is the part of the state for the operations with `part op = t`: they see and change
nothing else. -/
structure Splits (O : Object σ ω ρ) {ν : Type} (part : ω → Nat) (view : Nat → σ → ν) : Prop where
  other : ∀ s op t, part op ≠ t → view t (O.apply s op).1 = view t s
  own : ∀ s u op, view (part op) s = view (part op) u → (O.apply s op).2 = (O.apply u op).2 ∧
    view (part op) (O.apply s op).1 = view (part op) (O.apply u op).1

/-- The operations of one part, run by themselves. -/
theorem Splits.legal {ν : Type} {part : ω → Nat} {view : Nat → σ → ν} (h : Splits O part view)
    (t : Nat) : ∀ (es : List (Done ω ρ)) (s s' u : σ), view t s = view t u → O.Legal s es s' →
      (es.filter fun e => part e.op = t).map Done.result =
        (O.run u ((es.filter fun e => part e.op = t).map Done.op)).2 ∧
      view t s' = view t (O.run u ((es.filter fun e => part e.op = t).map Done.op)).1 := by
  intro es
  induction es with
  | nil =>
    intro s s' u hv hl
    obtain rfl : s = s' := hl
    exact ⟨rfl, hv⟩
  | cons e es ih =>
    intro s s' u hv hl
    obtain ⟨hres, hl⟩ := hl
    by_cases he : part e.op = t
    · obtain ⟨h1, h2⟩ := h.own s u e.op (by rw [he]; exact hv)
      rw [he] at h2
      obtain ⟨h3, h4⟩ := ih _ s' _ h2 hl
      rw [List.filter_cons_of_pos (by simpa using he)]
      refine ⟨?_, h4⟩
      simp only [List.map_cons, Object.run]
      rw [← h3, ← h1, hres]
    · rw [List.filter_cons_of_neg (by simpa using he)]
      exact ih _ s' u ((h.other s e.op t he).trans hv) hl

/-! ## The order of one thread -/

/-- The first results do not depend on what comes after. -/
theorem Object.run_take (s : σ) (ops : List ω) (m : Nat) :
    (O.run s (ops.take m)).2 = (O.run s ops).2.take m := by
  induction ops generalizing s m with
  | nil => simp [Object.run]
  | cons op ops ih =>
    cases m with
    | zero => rfl
    | succ m => simp [Object.run, ih]

/-- Names that stand in the order of their threads: those of one thread are counted up. -/
theorem ids_of_thread (t : Nat) (ids : List (Nat × Nat)) (honce : ids.Nodup)
    (hprog : ∀ i j, i < j → (t, j) ∈ ids → Before ids (t, i) (t, j)) :
    ∃ m, ids.filter (fun id => id.1 = t) = (List.range m).map fun i => (t, i) := by
  induction ids using List.reverseRecOn with
  | nil => exact ⟨0, rfl⟩
  | append_singleton ids id ih =>
    obtain ⟨honce', -, hdisj⟩ := List.nodup_append'.mp honce
    have hnew : id ∉ ids := fun hc => hdisj hc List.mem_cons_self
    obtain ⟨m, hm⟩ := ih honce' fun i j hij hj => by
      rcases before_append.mp (hprog i j hij (List.mem_append_left _ hj)) with hb | ⟨-, hb⟩
      · exact hb
      · exact absurd (hb ▸ hj) hnew
    by_cases hid : id.1 = t
    · -- all that come before it in the thread are there, and it is not
      have hmem : ∀ i, (t, i) ∈ ids ↔ i < m := by
        intro i
        have : (t, i) ∈ ids ↔ (t, i) ∈ ids.filter fun id => id.1 = t := by simp
        rw [this, hm]
        simp
      obtain ⟨t', j⟩ := id
      obtain rfl : t' = t := hid
      have hj : j = m := by
        have h1 : ¬ j < m := fun hc => hnew ((hmem j).mpr hc)
        by_contra hne
        have hb := hprog m j (by omega) (List.mem_append_right _ List.mem_cons_self)
        rcases before_append.mp hb with hb | ⟨hb, -⟩
        · exact hnew (hb.subset (List.mem_cons_of_mem _ List.mem_cons_self))
        · exact absurd ((hmem m).mp hb) (Nat.lt_irrefl m)
      refine ⟨m + 1, ?_⟩
      rw [List.filter_append, hm, List.range_succ, List.map_append, hj]
      simp
    · refine ⟨m, ?_⟩
      rw [List.filter_append, hm]
      simp [hid]

/-! ## Workloads -/

/-- The calls of the history are those of the workloads. -/
def Works (work : Nat → List ω) (hist : List (Event ω ρ)) : Prop :=
  ∀ t i op, .call (t, i) op ∈ hist → (work t)[i]? = some op

def ofThread (t : Nat) (order : List (Done ω ρ)) : List (Done ω ρ) :=
  order.filter fun e => e.id.1 = t

variable {hist : List (Event ω ρ)} {final : σ} {order : List (Done ω ρ)} {work : Nat → List ω}
  {t i : Nat} {e : Done ω ρ}

theorem Linearization.id_of_thread (h : Linearization O hist final order)
    (he : (ofThread t order)[i]? = some e) : e.id = (t, i) := by
  obtain ⟨m, hm⟩ := ids_of_thread t (order.map Done.id) h.once (h.program t)
  have hids : (ofThread t order).map Done.id = (List.range m).map fun i => (t, i) := by
    rw [← hm, List.filter_map]
    rfl
  have hid : ((ofThread t order).map Done.id)[i]? = some e.id := by
    rw [List.getElem?_map, he]
    rfl
  rw [hids, List.getElem?_map] at hid
  obtain ⟨j, hj, hji⟩ := Option.map_eq_some_iff.mp hid
  have hij : i = j := by
    obtain ⟨hlt, rfl⟩ := List.getElem?_eq_some_iff.mp hj
    exact (List.getElem_range hlt).symm
  rw [← hji, hij]

/-- An operation that returned has its place among those of its thread. -/
theorem Linearization.get_of_ret (h : Linearization O hist final order) {r : ρ}
    (hr : .ret (t, i) r ∈ hist) : ∃ e, (ofThread t order)[i]? = some e ∧ e.result = r := by
  obtain ⟨e, he, hid, hres⟩ := h.complete (t, i) r hr
  have hmem : e ∈ ofThread t order := List.mem_filter.mpr ⟨he, by rw [hid]; simp⟩
  obtain ⟨j, hj⟩ := List.mem_iff_getElem?.mp hmem
  have hji : (t, i) = (t, j) := hid.symm.trans (h.id_of_thread hj)
  obtain rfl : i = j := congrArg Prod.snd hji
  exact ⟨e, hj, hres⟩

/-- In a linearization the operations of a thread are the first ones of its workload. -/
theorem Linearization.ops_of_thread (h : Linearization O hist final order) (hw : Works work hist)
    (t : Nat) : (ofThread t order).map Done.op = (work t).take (ofThread t order).length := by
  apply List.ext_getElem?
  intro i
  rw [List.getElem?_map]
  cases he : (ofThread t order)[i]? with
  | some e =>
    have hmem : e ∈ order := List.mem_of_mem_filter (List.mem_of_getElem? he)
    have hcall := h.called e hmem
    rw [h.id_of_thread he] at hcall
    rw [List.getElem?_take_of_lt (List.getElem?_eq_some_iff.mp he).1, hw t i e.op hcall]
    rfl
  | none =>
    have hi := List.getElem?_eq_none_iff.mp he
    rw [Option.map_none, List.getElem?_eq_none]
    rw [List.length_take]
    omega

/-- **Alone**: with a part of its own, a thread gets the results and leaves the part that it gets
and leaves without the others. -/
theorem Linearization.alone {ν : Type} {part : ω → Nat} {view : Nat → σ → ν}
    (h : Linearization O hist final order) (hw : Works work hist) (hs : Splits O part view)
    (hpart : ∀ t, ∀ op ∈ work t, part op = t) :
    (∀ t i r, .ret (t, i) r ∈ hist → (O.run O.init (work t)).2[i]? = some r) ∧
    ∀ t, (∀ i < (work t).length, ∃ r, .ret (t, i) r ∈ hist) →
      view t final = view t (O.run O.init (work t)).1 := by
  -- the operations of the thread are those of its part
  have hfilter : ∀ t, (order.filter fun e => part e.op = t) = ofThread t order := by
    intro t
    apply List.filter_congr
    intro e he
    have hmem := List.mem_of_getElem? (hw e.id.1 e.id.2 e.op (h.called e he))
    rw [hpart _ _ hmem]
  have hlegal : ∀ t, (ofThread t order).map Done.result =
      (O.run O.init ((work t).take (ofThread t order).length)).2 ∧
      view t final = view t (O.run O.init ((work t).take (ofThread t order).length)).1 := by
    intro t
    have := hs.legal t order _ _ _ rfl h.legal
    rwa [hfilter t, h.ops_of_thread hw t] at this
  refine ⟨fun t i r hr => ?_, fun t hall => ?_⟩
  · obtain ⟨e, he, rfl⟩ := h.get_of_ret hr
    have hi := (List.getElem?_eq_some_iff.mp he).1
    have hres : ((ofThread t order).map Done.result)[i]? = some e.result := by
      rw [List.getElem?_map, he]
      rfl
    rwa [(hlegal t).1, Object.run_take, List.getElem?_take_of_lt hi] at hres
  · have hlen : (work t).length ≤ (ofThread t order).length := by
      by_contra hlt
      obtain ⟨r, hr⟩ := hall (ofThread t order).length (by omega)
      obtain ⟨e, he, -⟩ := h.get_of_ret hr
      exact Nat.lt_irrefl _ (List.getElem?_eq_some_iff.mp he).1
    rw [(hlegal t).2, List.take_of_length_le hlen]

end

end MulticorePrac
