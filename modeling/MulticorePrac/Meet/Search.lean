import MulticorePrac.Meet.Model

/-!
# Lab4: every thread searches level by level

What a thread enters does not depend on the others: only the thread itself sets its
own bit, so it goes through the vertices in the order `Bfs.level` of its house
(`Searching`).  Its queue is, fence by fence, the levels up to the current depth and
what it has entered of the next one, and its bit stands on exactly these vertices.
-/

namespace MulticorePrac.Meet

open House (Bits)

namespace Town

variable (t : Town)

theorem represents : Bfs.Represents t.graph t.gGraph :=
  ⟨fun h => t.mem_adjlist h, fun h => t.adjlist_of_adj h⟩

theorem numHouse_le : t.numHouse ≤ 64 := t.houses_le

theorem house_range {x : Nat} (hx : x < t.numHouse) :
    1 ≤ t.houseOf x ∧ t.houseOf x ≤ t.numVertices :=
  t.houses_range _ (t.houseOf_mem hx)

theorem house_lt {x e v : Nat} (hx : x < t.numHouse) (h : At t.graph (t.houseOf x) e v) :
    v < MAX_DEPTH := by
  have h1 := (t.at_range (t.house_range hx) h).2
  have h2 := t.vertices_le
  unfold MAX_DEPTH
  omega

/-- The vertices that thread `x` enters at depth `d`, in their order. -/
def bfsLevel (x d : Nat) : List Nat := Bfs.level t.gGraph (t.houseOf x) d

/-- All vertices that thread `x` enters up to depth `d`. -/
def bfsUpTo (x d : Nat) : List Nat := Bfs.upTo t.gGraph (t.houseOf x) d

theorem mem_bfsLevel {x d v : Nat} : v ∈ t.bfsLevel x d ↔ At t.graph (t.houseOf x) d v :=
  Bfs.mem_level t.represents _

theorem mem_bfsUpTo {x d v : Nat} :
    v ∈ t.bfsUpTo x d ↔ ∃ e ≤ d, At t.graph (t.houseOf x) e v :=
  Bfs.mem_upTo t.represents _

/-- The queue of thread `x` at the fence after level `d`. -/
def bfsQueue (x : Nat) : Nat → List Nat
  | 0 => t.bfsLevel x 0 ++ [0 + MAX_DEPTH]
  | d + 1 => bfsQueue x d ++ t.bfsLevel x (d + 1) ++ [d + 1 + MAX_DEPTH]

/-- The entry of `g_depth_fence_in_queue` for depth `d`: the fence before level `d`. -/
def fenceAt (x : Nat) : Nat → Nat
  | 0 => 0
  | d + 1 => (t.bfsQueue x d).length - 1

theorem setFlags_spec {v x : Nat} (hx : x < 64) :
    ∀ (hs : List Nat) (i : Nat) (flags : Nat → Bits), hs.Nodup → (∀ h ∈ hs, flags h = 0) →
      ((setFlags i hs flags v).getLsbD x = true ↔
        (flags v).getLsbD x = true ∨ ∃ j, hs[j]? = some v ∧ x = i + j) := by
  intro hs
  induction hs with
  | nil => intro i flags _ _; simp [setFlags]
  | cons h hs ih =>
    intro i flags hnd hz
    obtain ⟨hn, hnd⟩ := List.nodup_cons.mp hnd
    have hz' : ∀ h' ∈ hs, Function.update flags h (FLAG i) h' = 0 := by
      intro h' hh'
      rw [Function.update_of_ne (by rintro rfl; exact hn hh')]
      exact hz h' (List.mem_cons_of_mem h hh')
    have hhead : (Function.update flags h (FLAG i) v).getLsbD x = true ↔
        (flags v).getLsbD x = true ∨ h = v ∧ x = i := by
      by_cases hv : v = h
      · subst hv
        rw [Function.update_self, getLsbD_FLAG, hz v List.mem_cons_self]
        simp [hx, eq_comm]
      · rw [Function.update_of_ne hv]
        simp [Ne.symm hv]
    have htail : (∃ j, (h :: hs)[j]? = some v ∧ x = i + j) ↔
        (h = v ∧ x = i) ∨ ∃ j, hs[j]? = some v ∧ x = i + 1 + j := by
      constructor
      · rintro ⟨j, hj, rfl⟩
        cases j with
        | zero => exact Or.inl ⟨Option.some.inj hj, rfl⟩
        | succ j => exact Or.inr ⟨j, hj, by omega⟩
      · rintro (⟨rfl, rfl⟩ | ⟨j, hj, rfl⟩)
        · exact ⟨0, rfl, rfl⟩
        · exact ⟨j + 1, hj, by omega⟩
    rw [setFlags, ih (i + 1) _ hnd hz', hhead, htail, or_assoc]

/-- At the start the bits stand on the houses. -/
theorem gVertexFlag_spec {v x : Nat} :
    (t.gVertexFlag v).getLsbD x = true ↔ x < t.numHouse ∧ t.houseOf x = v := by
  have hof : t.houses[x]? = some v ↔ x < t.numHouse ∧ t.houseOf x = v := by
    unfold House.Problem.houseOf
    rw [List.getD_eq_getElem?_getD, List.getElem?_eq_some_iff]
    constructor
    · rintro ⟨hlt, rfl⟩
      exact ⟨hlt, by rw [List.getElem?_eq_getElem hlt]; rfl⟩
    · rintro ⟨hlt, h⟩
      have hlt' : x < t.houses.length := hlt
      rw [List.getElem?_eq_getElem hlt'] at h
      exact ⟨hlt', h⟩
  rw [← hof]
  unfold gVertexFlag
  by_cases hx : x < 64
  · rw [setFlags_spec hx t.houses 0 _ t.houses_nodup (fun _ _ => rfl)]
    simp
  · rw [BitVec.getLsbD_of_ge _ _ (by omega)]
    have hle := t.numHouse_le
    unfold numHouse at hle
    rw [List.getElem?_eq_none (by omega)]
    simp

theorem houseOf_inj {x y : Nat} (hx : x < t.numHouse) (hy : y < t.numHouse)
    (h : t.houseOf x = t.houseOf y) : x = y := by
  have hx' : x < t.houses.length := hx
  have hy' : y < t.houses.length := hy
  unfold House.Problem.houseOf at h
  rw [List.getD_eq_getElem?_getD, List.getD_eq_getElem?_getD, List.getElem?_eq_getElem hx',
    List.getElem?_eq_getElem hy'] at h
  exact (t.houses_nodup.getElem_inj_iff).mp h

end Town

/-! ## The queue of one thread -/

/-- The neighbours that are left, with the one that is about to be marked. -/
def Finder.pending (f : Finder) : List Nat :=
  match f.pc with
  | .mark v => v :: f.nbrs
  | _ => f.nbrs

/-- Thread `x` is at `currDepth`: of that level `cur` is still in the queue, before the fence, and
after the fence stands `next`, what it has entered of the next level. -/
structure Searching (t : Town) (x : Nat) (flags : Nat → Bits) (f : Finder) (cur next : List Nat) :
    Prop where
  queue : f.queue = t.bfsQueue x f.currDepth ++ next
  rest : f.queue.drop f.front = cur ++ (f.currDepth + MAX_DEPTH) :: next
  level : ∀ u ∈ cur, u ∈ t.bfsLevel x f.currDepth
  goal : Bfs.expand t.gGraph (t.bfsUpTo x f.currDepth)
    (Bfs.scan (t.bfsUpTo x f.currDepth) next f.pending) cur = t.bfsLevel x (f.currDepth + 1)
  marked : ∀ v, (flags v).getLsbD x = true ↔ v ∈ t.bfsUpTo x f.currDepth ∨ v ∈ next
  fresh : ∀ v, f.pc = .mark v → v ∉ t.bfsUpTo x f.currDepth ∧ v ∉ next
  idle : f.pc = .dequeue ∨ f.pc = .done → f.nbrs = []
  closed : f.pc = .done → next = []
  fences : f.fences = (List.range (f.currDepth + 1)).map (t.fenceAt x)

namespace Searching

variable {t : Town} {x : Nat} {flags : Nat → Bits} {f : Finder} {cur next : List Nat}

theorem start (t : Town) {x : Nat} (hx : x < t.numHouse) :
    Searching t x t.gVertexFlag (Finder.start t x) [t.houseOf x] [] where
  queue := rfl
  rest := rfl
  level u hu := hu
  goal := rfl
  marked v := by
    rw [t.gVertexFlag_spec]
    show _ ↔ v ∈ [t.houseOf x] ∨ v ∈ []
    simp [hx, eq_comm]
  fresh v hv := by cases hv
  idle _ := rfl
  closed _ := rfl
  fences := rfl

/-- What is entered of the next level is the beginning of it. -/
theorem next_grows (h : Searching t x flags f cur next) :
    next <+: t.bfsLevel x (f.currDepth + 1) := by
  rw [← h.goal]
  exact (Bfs.scan_grows _ _).trans (Bfs.expand_grows _ _)

theorem next_at (h : Searching t x flags f cur next) {v : Nat} (hv : v ∈ next) :
    At t.graph (t.houseOf x) (f.currDepth + 1) v :=
  t.mem_bfsLevel.mp (h.next_grows.subset hv)

/-- A dequeued item that is a vertex. -/
theorem dequeue_vertex (hx : x < t.numHouse) {u : Nat} {us : List Nat}
    (h : Searching t x flags f (u :: us) next) (hpc : f.pc = .dequeue) :
    f.dequeue t = { f with front := f.front + 1, nbrs := t.gGraph u, pc := .test } ∧
      Searching t x flags (f.dequeue t) us next := by
  have hq : f.queue[f.front]? = some u := by
    rw [← List.head?_drop, h.rest]
    rfl
  have hlt : ¬ MAX_DEPTH ≤ u := by
    have := t.house_lt hx (t.mem_bfsLevel.mp (h.level u List.mem_cons_self))
    omega
  have he : f.dequeue t = { f with front := f.front + 1, nbrs := t.gGraph u, pc := .test } := by
    unfold Finder.dequeue
    rw [hq]
    exact if_neg hlt
  refine ⟨he, ?_⟩
  rw [he]
  have hn := h.idle (Or.inl hpc)
  exact {
    queue := h.queue
    rest := by
      show f.queue.drop (f.front + 1) = _
      rw [← List.drop_drop, h.rest]
      rfl
    level := fun v hv => h.level v (List.mem_cons_of_mem u hv)
    goal := by
      have hg := h.goal
      have hp : f.pending = [] := by
        unfold Finder.pending
        rw [hpc, hn]
      rw [hp] at hg
      exact hg
    marked := h.marked
    fresh := fun v hv => by cases hv
    idle := fun hi => by rcases hi with hi | hi <;> cases hi
    closed := fun hd => by cases hd
    fences := h.fences }

/-- A dequeued item that is a fence: the next level is complete. -/
theorem dequeue_fence (h : Searching t x flags f [] next) (hpc : f.pc = .dequeue) :
    f.dequeue t = f.fence t ∧ next = t.bfsLevel x (f.currDepth + 1) ∧
      Searching t x flags (f.dequeue t) next [] := by
  have hq : f.queue[f.front]? = some (f.currDepth + MAX_DEPTH) := by
    rw [← List.head?_drop, h.rest]
    rfl
  have hle : f.front + 1 ≤ f.queue.length := by
    obtain ⟨hlt, -⟩ := List.getElem?_eq_some_iff.mp hq
    exact hlt
  have hn := h.idle (Or.inl hpc)
  have hnext : next = t.bfsLevel x (f.currDepth + 1) := by
    have hg := h.goal
    have hp : f.pending = [] := by
      unfold Finder.pending
      rw [hpc, hn]
    rw [hp] at hg
    exact hg
  have he : f.dequeue t = f.fence t := by
    unfold Finder.dequeue
    rw [hq]
    exact if_pos (by omega)
  have hpc' : (f.fence t).pc = .done ∨ (f.fence t).pc = .dequeue := by
    show (if f.visitedFlag = t.gFullFlag then Pc.done else Pc.dequeue) = .done ∨ _
    by_cases hf : f.visitedFlag = t.gFullFlag
    · exact Or.inl (if_pos hf)
    · exact Or.inr (if_neg hf)
  refine ⟨he, hnext, ?_⟩
  rw [he]
  exact {
    queue := by
      show f.queue ++ [f.currDepth + 1 + MAX_DEPTH] = t.bfsQueue x (f.currDepth + 1) ++ []
      rw [h.queue, hnext, List.append_nil]
      rfl
    rest := by
      show (f.queue ++ [f.currDepth + 1 + MAX_DEPTH]).drop (f.front + 1) = _
      rw [List.drop_append_of_le_length hle, ← List.drop_drop, h.rest]
      rfl
    level := fun v hv => by rw [hnext] at hv; exact hv
    goal := by
      have hp : (f.fence t).pending = f.nbrs := by
        unfold Finder.pending
        rcases hpc' with hpc' | hpc' <;> (rw [hpc']; rfl)
      rw [hp]
      show Bfs.expand t.gGraph _ (Bfs.scan _ [] f.nbrs) next = _
      rw [hn, hnext]
      rfl
    marked := fun v => by
      rw [h.marked v, hnext]
      show _ ↔ v ∈ Bfs.upTo t.gGraph (t.houseOf x) (f.currDepth + 1) ∨ v ∈ []
      rw [Bfs.upTo_succ, List.mem_append]
      simp only [List.not_mem_nil, or_false]
      rfl
    fresh := fun v hv => by
      rw [hv] at hpc'
      rcases hpc' with hpc' | hpc' <;> cases hpc'
    idle := fun _ => hn
    closed := fun _ => rfl
    fences := by
      show f.fences ++ [f.front] = (List.range (f.currDepth + 1 + 1)).map (t.fenceAt x)
      -- the fence is the last item of the queue before what is entered of the next level
      have hfront : f.front = t.fenceAt x (f.currDepth + 1) := by
        have h1 := congrArg List.length h.rest
        have h2 := congrArg List.length h.queue
        rw [List.length_drop, List.length_append, List.length_cons, List.length_nil] at h1
        rw [List.length_append] at h2
        show f.front = (t.bfsQueue x f.currDepth).length - 1
        omega
      rw [List.range_succ, List.map_append, h.fences, hfront]
      rfl }

theorem test (hx : x < 64) (h : Searching t x flags f cur next) (hpc : f.pc = .test) :
    Searching t x flags (f.test flags x) cur next := by
  have hp : f.pending = f.nbrs := by
    unfold Finder.pending
    rw [hpc]
  have hg := h.goal
  rw [hp] at hg
  unfold Finder.test
  split
  · rename_i hn
    exact { h with
      goal := by rw [hn] at hg; exact hn ▸ hg
      fresh := fun v hv => by cases hv
      idle := fun _ => hn
      closed := fun hd => by cases hd }
  · rename_i v nbrs hn
    rw [hn] at hg
    by_cases hv : v ∈ t.bfsUpTo x f.currDepth ∨ v ∈ next
    · -- the own bit is set: the neighbour is skipped
      rw [if_pos ((and_FLAG_ne_zero hx _).mpr ((h.marked v).mpr hv))]
      rw [Bfs.scan_skip hv] at hg
      exact { h with
        goal := by
          have hp' : ({ f with nbrs := nbrs } : Finder).pending = nbrs := by
            unfold Finder.pending
            simp only [hpc]
          rw [hp']
          exact hg
        fresh := fun w hw => by rw [hpc] at hw; cases hw
        idle := fun hi => by rw [hpc] at hi; rcases hi with hi | hi <;> cases hi
        closed := fun hd => by rw [hpc] at hd; cases hd }
    · rw [if_neg (fun hb => hv ((h.marked v).mp ((and_FLAG_ne_zero hx _).mp hb)))]
      exact { h with
        goal := hg
        fresh := fun w hw => by
          obtain rfl : v = w := by injection hw
          exact not_or.mp hv
        idle := fun hi => by rcases hi with hi | hi <;> cases hi
        closed := fun hd => by cases hd }

/-- Marking a vertex enters it into the next level. -/
theorem enter {v : Nat} (h : Searching t x flags f cur next) (hpc : f.pc = .mark v) (b : Bits)
    {flags' : Nat → Bits}
    (hflags : ∀ w, (flags' w).getLsbD x = true ↔ (flags w).getLsbD x = true ∨ w = v) :
    Searching t x flags' (f.enter v b) cur (next ++ [v]) := by
  obtain ⟨hfront, hnbrs, hdepth, hfences⟩ := f.enter_rest v b
  have hv := h.fresh v hpc
  exact {
    queue := by
      rw [hdepth, Finder.enter_queue, h.queue, List.append_assoc]
    rest := by
      rw [hfront, hdepth, Finder.enter_queue, List.drop_append_of_le_length, h.rest]
      · rw [List.append_assoc]
        rfl
      · -- the fence is still to come
        have hlen := congrArg List.length h.rest
        rw [List.length_drop, List.length_append, List.length_cons] at hlen
        omega
    level := by rw [hdepth]; exact h.level
    goal := by
      have hp : (f.enter v b).pending = f.nbrs := by
        unfold Finder.pending
        rw [Finder.enter_pc, hnbrs]
      have hg := h.goal
      have hp' : f.pending = v :: f.nbrs := by
        unfold Finder.pending
        rw [hpc]
      rw [hp', Bfs.scan_enter (not_or.mpr hv)] at hg
      rw [hp, hdepth]
      exact hg
    marked := fun w => by
      rw [hflags, h.marked, hdepth, List.mem_append, List.mem_singleton, or_assoc]
    fresh := fun w hw => by cases hw
    idle := fun hi => by rcases hi with hi | hi <;> cases hi
    closed := fun hd => by cases hd
    fences := by rw [hfences, hdepth]; exact h.fences }

/-- The other threads do not touch the own bit. -/
theorem congr {flags' : Nat → Bits} (h : Searching t x flags f cur next)
    (hflags : ∀ v, (flags' v).getLsbD x = (flags v).getLsbD x) :
    Searching t x flags' f cur next :=
  { h with marked := fun v => by rw [hflags]; exact h.marked v }

/-! ### What follows for the marked vertices -/

theorem at_of_marked (h : Searching t x flags f cur next) {v : Nat}
    (hv : (flags v).getLsbD x = true) :
    ∃ e ≤ f.currDepth + 1, At t.graph (t.houseOf x) e v := by
  rcases (h.marked v).mp hv with hv | hv
  · obtain ⟨e, he, hat⟩ := t.mem_bfsUpTo.mp hv
    exact ⟨e, by omega, hat⟩
  · exact ⟨_, Nat.le_refl _, h.next_at hv⟩

theorem marked_of_at (h : Searching t x flags f cur next) {v e : Nat} (he : e ≤ f.currDepth)
    (hv : At t.graph (t.houseOf x) e v) : (flags v).getLsbD x = true :=
  (h.marked v).mpr (Or.inl (t.mem_bfsUpTo.mpr ⟨e, he, hv⟩))

end Searching

/-! ## The order of the queue -/

section
variable (t : Town) (x : Nat)

theorem mem_bfsQueue {v : Nat} (hv : v < MAX_DEPTH) :
    ∀ d, v ∈ t.bfsQueue x d ↔ v ∈ t.bfsUpTo x d := by
  intro d
  induction d with
  | zero =>
    show v ∈ t.bfsLevel x 0 ++ [0 + MAX_DEPTH] ↔ v ∈ t.bfsLevel x 0
    rw [List.mem_append, List.mem_singleton]
    exact ⟨fun h => h.resolve_right (by omega), Or.inl⟩
  | succ d ih =>
    show v ∈ t.bfsQueue x d ++ t.bfsLevel x (d + 1) ++ [d + 1 + MAX_DEPTH] ↔
      v ∈ t.bfsUpTo x d ++ t.bfsLevel x (d + 1)
    rw [List.mem_append, List.mem_append, List.mem_append, List.mem_singleton, ih]
    exact ⟨fun h => h.resolve_right (by omega), Or.inl⟩

/-- Two items of the queue that are vertices are in the order of their levels. -/
def InOrder (u v : Nat) : Prop :=
  ∀ d e, At t.graph (t.houseOf x) d u → At t.graph (t.houseOf x) e v → d ≤ e

variable {t x}

theorem Searching.sorted (hx : x < t.numHouse) {flags : Nat → Bits} {f : Finder}
    {cur next : List Nat} (h : Searching t x flags f cur next) :
    f.queue.Pairwise (InOrder t x) := by
  have hblock : ∀ d, ∀ v ∈ t.bfsQueue x d, ∀ e, At t.graph (t.houseOf x) e v → e ≤ d := by
    intro d v hv e he
    obtain ⟨e', he', h'⟩ := t.mem_bfsUpTo.mp ((mem_bfsQueue t x (t.house_lt hx he) d).mp hv)
    have := he.inj h'
    omega
  have hlevel : ∀ d, (t.bfsLevel x d).Pairwise (InOrder t x) := by
    intro d
    refine List.pairwise_of_forall_mem_list fun u hu v hv e e' he he' => ?_
    have h1 := he.inj (t.mem_bfsLevel.mp hu)
    have h2 := he'.inj (t.mem_bfsLevel.mp hv)
    omega
  have hqueue : ∀ d, (t.bfsQueue x d).Pairwise (InOrder t x) := by
    intro d
    have hfence : ∀ (l : List Nat) (d : Nat), l.Pairwise (InOrder t x) →
        (l ++ [d + MAX_DEPTH]).Pairwise (InOrder t x) := by
      intro l d hl
      refine List.pairwise_append.mpr ⟨hl, List.pairwise_singleton _ _, fun u _ v hv e e' _ he' => ?_⟩
      rw [List.mem_singleton] at hv
      have := t.house_lt hx he'
      omega
    induction d with
    | zero => exact hfence _ _ (hlevel 0)
    | succ d ih =>
      refine hfence _ _ (List.pairwise_append.mpr ⟨ih, hlevel _, fun u hu v hv e e' he he' => ?_⟩)
      have h1 := hblock d u hu e he
      have h2 := he'.inj (t.mem_bfsLevel.mp hv)
      omega
  rw [h.queue]
  refine List.pairwise_append.mpr
    ⟨hqueue _, (hlevel _).sublist h.next_grows.sublist, fun u hu v hv e e' he he' => ?_⟩
  have h1 := hblock _ u hu e he
  have h2 := he'.inj (h.next_at hv)
  omega

theorem Searching.mem_queue {flags : Nat → Bits} {f : Finder}
    {cur next : List Nat} (h : Searching t x flags f cur next) {v : Nat} (hv : v < MAX_DEPTH) :
    v ∈ f.queue ↔ (flags v).getLsbD x = true := by
  rw [h.queue, List.mem_append, mem_bfsQueue t x hv, h.marked]

/-- A vertex that is not after another one in the queue is not at a later level. -/
theorem Searching.level_le (hx : x < t.numHouse) {flags : Nat → Bits} {f : Finder}
    {cur next : List Nat} (h : Searching t x flags f cur next) {u v d e : Nat}
    (hu : At t.graph (t.houseOf x) d u) (hv : At t.graph (t.houseOf x) e v)
    (hmem : v ∈ f.queue) (hle : f.queue.idxOf u ≤ f.queue.idxOf v) : d ≤ e := by
  by_cases huv : f.queue.idxOf u = f.queue.idxOf v
  · obtain rfl : v = u := (List.idxOf_inj hmem).mp huv.symm
    exact Nat.le_of_eq (hu.inj hv)
  · have hv' := List.idxOf_lt_length_iff.mpr hmem
    have hp := List.pairwise_iff_getElem.mp (h.sorted hx) (f.queue.idxOf u) (f.queue.idxOf v)
      (by omega) hv' (by omega)
    rw [List.getElem_idxOf, List.getElem_idxOf] at hp
    exact hp d e hu hv

end

end MulticorePrac.Meet
