import MulticorePrac.Meet.Distance

/-!
# Lab4: which of the two distances it is (`MakeResult`)

The comment of `MakeResult` decides between `D1 + D2` and `D1 + D2 - 1` by the vertices
of the two meetings: the distance is `D1 + D2` if thread `x` met `y` at a vertex of `y`'s
level `D2`, or the other way round, and `D1 + D2 - 1` if not.  The two loops of
`MakeResult` look for these vertices in the part of the queue between two fences.

The rule holds, in every schedule, when the first vertex of a level that is at most one
step off a shortest path to the other house always lies on one (`Town.FirstOnPath`).  The
loop over the pairs with the largest sum then ends early iff one of them is at distance
`D1 + D2` (`maxBreaks_iff`).  The other loop asks for both vertices, not for one of them;
it ends early iff one of its pairs is at distance `D1 + D2 - 1` (`minBreaks_iff`) if no
thread was met beyond the level at which it met the other one (`Tight`), as in a run
without overruns.
-/

namespace MulticorePrac.Meet

/-! ## `MakeResult` -/

/-- The loop over `queue[thd]` from `fence[d]` to `fence[d + 1]` that looks for `v`; `none` if it
reads the fences past their end. -/
def Finder.finds (f : Finder) (d v : Nat) : Option Bool := do
  let first ← f.fences[d]?
  let last ← f.fences[d + 1]?
  some (((f.queue.drop first).take (last - first)).contains v)

/-- The pairs `i < j` in the order of the two loops. -/
def housePairs (n : Nat) : List (Nat × Nat) :=
  (List.range n).flatMap fun i => ((List.range n).filter fun j => i < j).map fun j => (i, j)

def depthSum (s : St) (p : Nat × Nat) : Nat := (metAt s p.1 p.2).depth + (metAt s p.2 p.1).depth

def minSum (t : Town) (s : St) : Nat :=
  (housePairs t.numHouse).foldl (fun m p => if depthSum s p < m then depthSum s p else m) 999999999

def maxSum (t : Town) (s : St) : Nat :=
  (housePairs t.numHouse).foldl (fun m p => if m < depthSum s p then depthSum s p else m) 0

/-- The loop over `min_pairs`: whether it is left by a `break`. -/
def minBreaks (s : St) : List (Nat × Nat) → Option Bool
  | [] => some false
  | (i, j) :: ps => do
    let found ← (s.finder j).finds (metAt s j i).depth (metAt s i j).vid
    if found then
      let found ← (s.finder i).finds (metAt s i j).depth (metAt s j i).vid
      if found then minBreaks s ps else some true
    else some true

/-- The loop over `max_pairs`: whether it is left by a `break`. -/
def maxBreaks (s : St) : List (Nat × Nat) → Option Bool
  | [] => some false
  | (i, j) :: ps => do
    let found ← (s.finder j).finds ((metAt s j i).depth - 1) (metAt s i j).vid
    if found then maxBreaks s ps
    else
      let found ← (s.finder i).finds ((metAt s i j).depth - 1) (metAt s j i).vid
      if found then maxBreaks s ps else some true

def minPairs (t : Town) (s : St) : List (Nat × Nat) :=
  (housePairs t.numHouse).filter fun p => depthSum s p = minSum t s

def maxPairs (t : Town) (s : St) : List (Nat × Nat) :=
  (housePairs t.numHouse).filter fun p => depthSum s p = maxSum t s

theorem minPairs_subset (t : Town) (s : St) : minPairs t s ⊆ housePairs t.numHouse :=
  List.filter_subset_self _

theorem maxPairs_subset (t : Town) (s : St) : maxPairs t s ⊆ housePairs t.numHouse :=
  List.filter_subset_self _

/-- The two numbers that are printed. -/
def makeResult (t : Town) (s : St) : Option (Int × Int) := do
  let min ← (minBreaks s (minPairs t s)).map fun b => if b then (minSum t s : Int) - 1 else minSum t s
  let max ← (maxBreaks s (maxPairs t s)).map fun b => if b then (maxSum t s : Int) else maxSum t s - 1
  some (min, max)

/-- The distance of two houses by the rule of the comment. -/
def classify (t : Town) (s : St) (x y : Nat) : Nat :=
  if (metAt s x y).vid ∈ t.bfsLevel y (metAt s y x).depth ∨
      (metAt s y x).vid ∈ t.bfsLevel x (metAt s x y).depth then
    (metAt s x y).depth + (metAt s y x).depth
  else (metAt s x y).depth + (metAt s y x).depth - 1

/-! ## The queue between two fences -/

section
variable {t : Town} {x : Nat}

theorem bfsQueue_grows {d : Nat} : ∀ {e}, d ≤ e → t.bfsQueue x d <+: t.bfsQueue x e := by
  intro e
  induction e with
  | zero =>
    intro h
    obtain rfl : d = 0 := by omega
    exact List.prefix_rfl
  | succ e ih =>
    intro h
    by_cases hde : d = e + 1
    · rw [hde]
    · refine (ih (by omega)).trans ⟨t.bfsLevel x (e + 1) ++ [e + 1 + MAX_DEPTH], ?_⟩
      rw [← List.append_assoc]
      rfl

/-- The fence that stands before level `d`; there is none before the house. -/
def fenceBefore : Nat → List Nat
  | 0 => []
  | d + 1 => [d + MAX_DEPTH]

theorem le_of_mem_fenceBefore {d v : Nat} (hv : v ∈ fenceBefore d) : MAX_DEPTH ≤ v := by
  cases d with
  | zero => cases hv
  | succ d =>
    rw [List.mem_singleton.mp hv]
    exact Nat.le_add_left _ _

/-- The queue at the end of level `d`: what comes before the level has no vertex of it. -/
theorem bfsQueue_split (hx : x < t.numHouse) (d : Nat) : ∃ before,
    t.bfsQueue x d = before ++ t.bfsLevel x d ++ [d + MAX_DEPTH] ∧
      t.fenceAt x d ≤ before.length ∧ before.drop (t.fenceAt x d) = fenceBefore d ∧
      ∀ v ∈ before, ¬At t.graph (t.houseOf x) d v := by
  cases d with
  | zero => exact ⟨[], rfl, Nat.le_refl _, rfl, fun v hv => by cases hv⟩
  | succ d =>
    have hlast : ∃ l, t.bfsQueue x d = l ++ [d + MAX_DEPTH] := by
      cases d with
      | zero => exact ⟨_, rfl⟩
      | succ d => exact ⟨_, rfl⟩
    obtain ⟨l, hl⟩ := hlast
    have hfence : t.fenceAt x (d + 1) = l.length := by
      show (t.bfsQueue x d).length - 1 = _
      rw [hl, List.length_append, List.length_singleton]
      omega
    refine ⟨t.bfsQueue x d, rfl, Nat.sub_le _ _, ?_, fun v hv hat => ?_⟩
    · rw [hfence, hl, List.drop_left]
      rfl
    · obtain ⟨e, he, hat'⟩ := t.mem_bfsUpTo.mp ((mem_bfsQueue t x (t.house_lt hx hat) d).mp hv)
      have := hat.inj hat'
      omega

variable {flags : Nat → House.Bits} {f : Finder} {cur next : List Nat}

theorem Searching.fence_get (h : Searching t x flags f cur next) {d : Nat}
    (hd : d ≤ f.currDepth) : f.fences[d]? = some (t.fenceAt x d) := by
  rw [h.fences, List.getElem?_map, List.getElem?_range (by omega)]
  rfl

/-- Between the fences of a completed level stand the fence before it and its vertices. -/
theorem Searching.between (hx : x < t.numHouse) (h : Searching t x flags f cur next) {d : Nat}
    (hd : d < f.currDepth) :
    (f.queue.drop (t.fenceAt x d)).take (t.fenceAt x (d + 1) - t.fenceAt x d) =
      fenceBefore d ++ t.bfsLevel x d := by
  obtain ⟨before, hq, hlen, hfence, -⟩ := bfsQueue_split hx d
  obtain ⟨rest, hrest⟩ := bfsQueue_grows (t := t) (x := x) (Nat.le_of_lt hd)
  have hsucc : t.fenceAt x (d + 1) = before.length + (t.bfsLevel x d).length := by
    show (t.bfsQueue x d).length - 1 = _
    rw [hq, List.length_append, List.length_append, List.length_singleton]
    omega
  have hqueue : f.queue = before ++ (t.bfsLevel x d ++ ([d + MAX_DEPTH] ++ (rest ++ next))) := by
    rw [h.queue, ← hrest, hq]
    simp only [List.append_assoc]
  rw [hqueue, List.drop_append_of_le_length hlen, hfence, ← List.append_assoc]
  refine List.take_left' ?_
  rw [← hfence, List.length_append, List.length_drop, hsucc]
  omega

/-- Between the fences of a completed level the loops find its vertices. -/
theorem Searching.finds (hx : x < t.numHouse) (h : Searching t x flags f cur next) {d v : Nat}
    (hd : d < f.currDepth) (hv : v < MAX_DEPTH) :
    f.finds d v = some (decide (v ∈ t.bfsLevel x d)) := by
  unfold Finder.finds
  rw [h.fence_get (Nat.le_of_lt hd), h.fence_get hd]
  show some (((f.queue.drop _).take _).contains v) = _
  rw [h.between hx hd]
  congr 1
  rw [Bool.eq_iff_iff, List.contains_iff_mem, List.mem_append, decide_eq_true_iff]
  refine ⟨fun hm => hm.resolve_left fun hb => ?_, Or.inr⟩
  have := le_of_mem_fenceBefore hb
  omega

/-- A thread enters the vertices of a level in the order of `bfsLevel`. -/
theorem Searching.before (hx : x < t.numHouse) (h : Searching t x flags f cur next)
    {d u v : Nat} {l r : List Nat} (hlevel : t.bfsLevel x d = l ++ u :: r)
    (hv : (flags v).getLsbD x = true) (hat : At t.graph (t.houseOf x) d v) (hvl : v ∉ l)
    (hvu : v ≠ u) :
    (flags u).getLsbD x = true ∧ f.queue.idxOf u < f.queue.idxOf v := by
  have hu : At t.graph (t.houseOf x) d u := by
    rw [← t.mem_bfsLevel, hlevel]
    exact List.mem_append_right l List.mem_cons_self
  -- the part of the level that is in the queue, with what stands before it
  obtain ⟨pre, part, post, hqueue, hpart, hvp, hpre⟩ : ∃ pre part post,
      f.queue = pre ++ (part ++ post) ∧ part <+: t.bfsLevel x d ∧ v ∈ part ∧
        ∀ w ∈ pre, ¬At t.graph (t.houseOf x) d w := by
    rcases (h.marked v).mp hv with hm | hm
    · obtain ⟨e, he, hat'⟩ := t.mem_bfsUpTo.mp hm
      obtain rfl : d = e := hat.inj hat'
      obtain ⟨before, hq, -, -, hb⟩ := bfsQueue_split hx d
      obtain ⟨rest, hrest⟩ := bfsQueue_grows (t := t) (x := x) he
      refine ⟨before, t.bfsLevel x d, [d + MAX_DEPTH] ++ (rest ++ next), ?_, List.prefix_rfl,
        t.mem_bfsLevel.mpr hat, hb⟩
      rw [h.queue, ← hrest, hq]
      simp only [List.append_assoc]
    · obtain rfl : d = f.currDepth + 1 := hat.inj (h.next_at hm)
      refine ⟨t.bfsQueue x f.currDepth, next, [], ?_, h.next_grows, hm, fun w hw hatw => ?_⟩
      · rw [List.append_nil]; exact h.queue
      · obtain ⟨e, he, hat'⟩ :=
          t.mem_bfsUpTo.mp ((mem_bfsQueue t x (t.house_lt hx hatw) _).mp hw)
        have := hatw.inj hat'
        omega
  -- the part goes past `u`, since it has `v`
  obtain ⟨part', hpart'⟩ : ∃ part', part = l ++ u :: part' := by
    have hpref : l ++ [u] <+: t.bfsLevel x d := ⟨r, by rw [hlevel]; simp⟩
    rcases List.prefix_or_prefix_of_prefix hpart hpref with hp | ⟨part', hp⟩
    · have hmem := hp.subset hvp
      rw [List.mem_append, List.mem_singleton] at hmem
      exact absurd hmem (not_or.mpr ⟨hvl, hvu⟩)
    · exact ⟨part', by rw [← hp]; simp⟩
  have hnu : u ∉ pre := fun hw => hpre u hw hu
  have hnv : v ∉ pre := fun hw => hpre v hw hat
  have hmem : u ∈ f.queue := by
    rw [hqueue, hpart']
    simp
  refine ⟨(h.mem_queue (t.house_lt hx hu)).mp hmem, ?_⟩
  rw [hqueue, List.idxOf_append_of_notMem hnu, List.idxOf_append_of_notMem hnv, hpart',
    List.append_assoc, List.idxOf_append_of_notMem hvl, List.cons_append, List.idxOf_cons_ne _ (Ne.symm hvu)]
  have hle : (l ++ u :: (part' ++ post)).idxOf u ≤ l.length := by
    by_cases hul : u ∈ l
    · rw [List.idxOf_append_of_mem hul]
      exact Nat.le_of_lt (List.idxOf_lt_length_iff.mpr hul)
    · rw [List.idxOf_append_of_notMem hul, List.idxOf_cons_self]
      omega
  omega

end

/-! ## When the rule is right -/

/-- In the order of `x`'s search, the first vertex of a level that is at most one step off a
shortest path to the house of `y` lies on such a path. -/
def Town.FirstOnPath (t : Town) : Prop :=
  ∀ x < t.numHouse, ∀ y < t.numHouse, x ≠ y → ∀ d, 1 ≤ d → d ≤ t.dist x y →
    ∀ l u r, t.bfsLevel x d = l ++ u :: r →
      (∀ w ∈ l, t.dist x y + 1 < d + t.graph.dist (t.houseOf y) w) →
      d + t.graph.dist (t.houseOf y) u ≤ t.dist x y + 1 →
      d + t.graph.dist (t.houseOf y) u = t.dist x y

/-- The thread that is about to meet `y` does so at a vertex that `y` reached not later than the
level at which it met the thread itself. -/
def NoOverrun (t : Town) (s : St) (x : Nat) : Prop :=
  ∀ v, (s.finder x).pc = .mark v → ∀ y < t.numHouse, Marked s y v → ¬Seen s x y → Seen s y x →
    ∀ e, At t.graph (t.houseOf y) e v → e ≤ (metAt s y x).depth

section
variable {t : Town} {s s' : St} {x y : Nat}

/-- If the distance is `D1 + D2 - 1`, thread `x` did not meet `y` in level `D2` of `y`: it would
have passed a vertex on a shortest path just before, and `y` would have met it there. -/
theorem Inv.off_level (hl : t.Linked) (hc : t.FirstOnPath) (hi : Inv t s) (hx : x < t.numHouse)
    (hy : y < t.numHouse) (hxy : x ≠ y) (hs : Seen s x y) (hs' : Seen s y x)
    (hd : t.dist x y + 1 = (metAt s x y).depth + (metAt s y x).depth) :
    (metAt s x y).vid ∉ t.bfsLevel y (metAt s y x).depth := by
  intro hmem
  have hm := hi.met x hx y hy hxy hs
  have hm' := hi.met y hy x hx (Ne.symm hxy) hs'
  have hvy := (at_iff.mp (t.mem_bfsLevel.mp hmem)).2
  obtain ⟨near, hnear⟩ : ∃ p : Nat → Bool, ∀ w, p w = true ↔
      (metAt s x y).depth + t.graph.dist (t.houseOf y) w ≤ t.dist x y + 1 :=
    ⟨fun w => decide _, fun w => decide_eq_true_iff⟩
  -- the first vertex of the level that is near, which is not where they met
  have hfind : ((t.bfsLevel x (metAt s x y).depth).find? near).isSome = true := by
    rw [List.find?_isSome]
    exact ⟨_, t.mem_bfsLevel.mpr hm.level, (hnear _).mpr (by omega)⟩
  obtain ⟨u, hu⟩ := Option.isSome_iff_exists.mp hfind
  obtain ⟨hu1, l, r, hlevel, hu2⟩ := List.find?_eq_some_iff_append.mp hu
  have hpath := hc x hx y hy hxy _ hm.pos (by have := hm'.pos; omega) l u r hlevel
    (fun w hw => by
      have hw' := hu2 w hw
      rw [Bool.not_eq_true'] at hw'
      have := mt (hnear w).mpr (by rw [hw']; exact Bool.false_ne_true)
      omega)
    ((hnear u).mp hu1)
  have huat : At t.graph (t.houseOf x) (metAt s x y).depth u := by
    rw [← t.mem_bfsLevel, hlevel]
    exact List.mem_append_right l List.mem_cons_self
  have huy : At t.graph (t.houseOf y) ((metAt s y x).depth - 1) u := by
    have hr := (hl y hy x hx).trans (at_iff.mp huat).1
    have := at_dist hr
    rwa [show t.graph.dist (t.houseOf y) u = (metAt s y x).depth - 1 by omega] at this
  obtain ⟨_, _, hsx⟩ := hi.searching x hx
  obtain ⟨_, _, hsy⟩ := hi.searching y hy
  obtain ⟨hux, hlt⟩ := hsx.before hx hlevel hm.mine hm.level
    (fun hw => by
      have hw' := hu2 _ hw
      rw [(hnear _).mpr (by omega)] at hw'
      cases hw')
    (fun he => by rw [he] at hvy; omega)
  have hdepth := hi.depth_le hy hx (Ne.symm hxy) hs'
  have hmy : Marked s y u := hsy.marked_of_at (by omega) huy
  rcases hi.both x hx y hy hxy u hux hmy with h | h
  · have := h.2
    omega
  · have := hi.metBy_le hy hx (Ne.symm hxy) h hmy huy
    have := hm'.pos
    omega

/-- The levels of the two meeting vertices from the other side. -/
theorem Inv.level_of_covered (hl : t.Linked) (hi : Inv t s) (hx : x < t.numHouse)
    (hy : y < t.numHouse) (hxy : x ≠ y) (hs' : Seen s y x) (hcov : Covered t s x y) :
    ∃ e ≤ (metAt s x y).depth, At t.graph (t.houseOf x) e (metAt s y x).vid ∧
      t.dist x y ≤ e + (metAt s y x).depth := by
  obtain ⟨e, he, hat⟩ := hcov
  exact ⟨e, he, hat, hat.triangle (hi.met y hy x hx (Ne.symm hxy) hs').level.symm
    (at_dist (hl x hx y hy))⟩

theorem Inv.classify_eq (hl : t.Linked) (hc : t.FirstOnPath) (hi : Inv t s) (hx : x < t.numHouse)
    (hy : y < t.numHouse) (hxy : x ≠ y) (hs : Seen s x y) (hs' : Seen s y x) :
    t.dist x y = classify t s x y := by
  have hd := at_dist (hl x hx y hy)
  have h1 := hi.depths_le hx hy hxy hs hs' hd
  have h2 := hi.le_depths hx hy hxy hs hs' hd
  have hcomm : t.dist y x = t.dist x y := SimpleGraph.dist_comm
  have hpos := (hi.met x hx y hy hxy hs).pos
  change t.dist x y ≤ _ at h2
  change _ ≤ t.dist x y + 1 at h1
  unfold classify
  by_cases hlow : t.dist x y + 1 = (metAt s x y).depth + (metAt s y x).depth
  · have h3 := hi.off_level hl hc hx hy hxy hs hs' hlow
    have h4 := hi.off_level hl hc hy hx (Ne.symm hxy) hs' hs (by omega)
    rw [if_neg (not_or.mpr ⟨h3, h4⟩)]
    omega
  · -- the vertex of the earlier meeting is exactly at the depth of the later one
    rw [if_pos]
    · omega
    · rcases hi.crossed x hx y hy hxy hs hs' with hcov | hcov
      · obtain ⟨e, he, hat, hle⟩ := hi.level_of_covered hl hx hy hxy hs' hcov
        obtain rfl : e = (metAt s x y).depth := by omega
        exact Or.inr (t.mem_bfsLevel.mpr hat)
      · obtain ⟨e, he, hat, hle⟩ := hi.level_of_covered hl hy hx (Ne.symm hxy) hs hcov
        obtain rfl : e = (metAt s y x).depth := by omega
        exact Or.inl (t.mem_bfsLevel.mpr hat)

end

/-! ## What the loops of `MakeResult` decide -/

/-- No thread was met beyond the level at which it met the other one. -/
def Tight (t : Town) (s : St) : Prop :=
  ∀ x < t.numHouse, ∀ y < t.numHouse, x ≠ y → Seen s x y → Seen s y x →
    ∀ e, At t.graph (t.houseOf y) e (metAt s x y).vid → e ≤ (metAt s y x).depth

section
variable {t : Town} {s s' : St} {x : Nat}

theorem tight_step (hi : Inv t s) (ht : Tight t s) (hn : NoOverrun t s x)
    (hs : step t s x = some s') : Tight t s' := by
  have hseen : ∀ y z, y ≠ x → (Seen s' y z ↔ Seen s y z) := fun y z hy => seen_of_ne hs hy
  have hmet : ∀ y z, y ≠ x → metAt s' y z = metAt s y z := fun y z hy => metAt_of_ne hs hy
  intro y hy z hz hyz h1 h2 e he
  by_cases hyx : y = x
  · -- the thread that moves has met `z`
    subst hyx
    have hzx := Ne.symm hyz
    have hr := records_step hs hz
    rw [hseen z y hzx] at h2
    rw [hmet z y hzx]
    by_cases hold : Seen s y z
    · rw [(hr.keeps hold).2] at he
      exact ht y hy z hz hyz hold h2 e he
    · obtain ⟨v, hpc, hm, hnew⟩ := hr.first hold h1
      rw [hnew] at he
      exact hn v hpc z hz hm hold h2 e he
  · rw [hseen y z hyx] at h1
    rw [hmet y z hyx] at he
    by_cases hzx : z = x
    · -- the thread that moves is met: its new depth covers all it has marked
      subst hzx
      have hr := records_step hs hy
      by_cases hold : Seen s z y
      · rw [(hr.keeps hold).2]
        exact ht y hy z hz hyz h1 hold e he
      · obtain ⟨v, -, -, hnew⟩ := hr.first hold h2
        rw [hnew]
        obtain ⟨_, _, h⟩ := hi.searching z hz
        obtain ⟨e', hle, he'⟩ := h.at_of_marked (hi.met y hy z hz hyz h1).theirs
        have := he.inj he'
        show e ≤ (s.finder z).currDepth + 1
        omega
    · rw [hseen z y hzx] at h2
      rw [hmet z y hzx]
      exact ht y hy z hz hyz h1 h2 e he

theorem tight_run {as : List Nat} (hn : (machine t).AllSteps (NoOverrun t) (machine t).init as)
    (hr : (machine t).run as = some s) : Tight t s := by
  refine ((machine t).invariantOn (NoOverrun t) (fun s => Inv t s ∧ Tight t s) ⟨inv_initial t, ?_⟩
    (fun s x s' hi hn hs => ⟨inv_step hi.1 hs, tight_step hi.1 hi.2 hn hs⟩) hn hr).2
  intro x hx y hy hxy h1
  have hb : (FLAG x).getLsbD y = true := h1
  rw [getLsbD_FLAG] at hb
  simp only [Bool.and_eq_true, decide_eq_true_eq] at hb
  exact absurd hb.2 hxy

/-- The pairs that the loops go through. -/
def Met (t : Town) (s : St) (p : Nat × Nat) : Prop :=
  p.1 < t.numHouse ∧ p.2 < t.numHouse ∧ p.1 ≠ p.2 ∧ Seen s p.1 p.2 ∧ Seen s p.2 p.1

theorem met_of_finished (hi : Inv t s) (hf : Finished t s) {p : Nat × Nat}
    (hp : p ∈ housePairs t.numHouse) : Met t s p := by
  unfold housePairs at hp
  simp only [List.mem_flatMap, List.mem_map, List.mem_filter, List.mem_range,
    decide_eq_true_eq] at hp
  obtain ⟨i, hi', j, ⟨hj, hij⟩, rfl⟩ := hp
  exact ⟨hi', hj, by show i ≠ j; omega, (hi.seen_all hi').mp (hi.done i hi' (hf i hi')) j hj,
    (hi.seen_all hj).mp (hi.done j hj (hf j hj)) i hi'⟩

/-- A search of the loops that stays within the fences. -/
theorem Inv.finds_iff (hi : Inv t s) (hx : x < t.numHouse) {d v : Nat} {b : Bool}
    (hv : v < MAX_DEPTH) (hb : (s.finder x).finds d v = some b) :
    b = true ↔ v ∈ t.bfsLevel x d := by
  obtain ⟨_, _, h⟩ := hi.searching x hx
  by_cases hd : d < (s.finder x).currDepth
  · rw [h.finds hx hd hv] at hb
    rw [← Option.some.inj hb, decide_eq_true_iff]
  · unfold Finder.finds at hb
    rw [h.fences] at hb
    have hnone : ((List.range ((s.finder x).currDepth + 1)).map (t.fenceAt x))[d + 1]? = none := by
      rw [List.getElem?_eq_none]
      rw [List.length_map, List.length_range]
      omega
    rw [hnone] at hb
    cases hget : ((List.range ((s.finder x).currDepth + 1)).map (t.fenceAt x))[d]? with
    | none => rw [hget] at hb; cases hb
    | some _ => rw [hget] at hb; cases hb

theorem Inv.vid_lt (hi : Inv t s) {y : Nat} (hx : x < t.numHouse) (hy : y < t.numHouse)
    (hxy : x ≠ y) (hs : Seen s x y) : (metAt s x y).vid < MAX_DEPTH :=
  t.house_lt hx (hi.met x hx y hy hxy hs).level

/-- A thread that has ended has completed the levels of its meetings. -/
theorem Inv.depth_done (hi : Inv t s) {y : Nat} (hx : x < t.numHouse) (hy : y < t.numHouse)
    (hxy : x ≠ y) (hs : Seen s x y) (hd : (s.finder x).pc = .done) :
    (metAt s x y).depth ≤ (s.finder x).currDepth := by
  have hm := hi.met x hx y hy hxy hs
  obtain ⟨_, _, h⟩ := hi.searching x hx
  rcases (h.marked _).mp hm.mine with hv | hv
  · obtain ⟨e, he, hat⟩ := t.mem_bfsUpTo.mp hv
    have := hat.inj hm.level
    omega
  · rw [h.closed hd] at hv
    cases hv

/-- One of the meetings was a level before the other thread's depth iff the distance is
`D1 + D2 - 1`. -/
theorem Inv.shorter_iff (hl : t.Linked) (hc : t.FirstOnPath) (hi : Inv t s) {y : Nat}
    (hx : x < t.numHouse) (hy : y < t.numHouse) (hxy : x ≠ y) (hs : Seen s x y)
    (hs' : Seen s y x) :
    ((metAt s x y).vid ∈ t.bfsLevel y ((metAt s y x).depth - 1) ∨
      (metAt s y x).vid ∈ t.bfsLevel x ((metAt s x y).depth - 1)) ↔
      t.dist x y + 1 = (metAt s x y).depth + (metAt s y x).depth := by
  have hd := at_dist (hl x hx y hy)
  have hm := hi.met x hx y hy hxy hs
  have hm' := hi.met y hy x hx (Ne.symm hxy) hs'
  have hle := hi.depths_le hx hy hxy hs hs' hd
  change _ ≤ t.dist x y + 1 at hle
  have hp := hm.pos
  have hp' := hm'.pos
  have hcomm : t.dist y x = t.dist x y := SimpleGraph.dist_comm
  constructor
  · rintro (h | h)
    · have htri : t.dist x y ≤ _ := hm.level.triangle (t.mem_bfsLevel.mp h).symm hd
      omega
    · have htri : t.dist x y ≤ _ := (t.mem_bfsLevel.mp h).triangle hm'.level.symm hd
      omega
  · intro hlow
    -- the covered vertex is not at the full depth, so it is one level before
    rcases hi.crossed x hx y hy hxy hs hs' with hcov | hcov
    · obtain ⟨e, he, hat, hle'⟩ := hi.level_of_covered hl hx hy hxy hs' hcov
      have hne : e ≠ (metAt s x y).depth := by
        rintro rfl
        exact hi.off_level hl hc hy hx (Ne.symm hxy) hs' hs (by omega) (t.mem_bfsLevel.mpr hat)
      right
      rw [t.mem_bfsLevel, show (metAt s x y).depth - 1 = e by omega]
      exact hat
    · obtain ⟨e, he, hat, hle'⟩ := hi.level_of_covered hl hy hx (Ne.symm hxy) hs hcov
      have hne : e ≠ (metAt s y x).depth := by
        rintro rfl
        exact hi.off_level hl hc hx hy hxy hs hs' hlow (t.mem_bfsLevel.mpr hat)
      left
      rw [t.mem_bfsLevel, show (metAt s y x).depth - 1 = e by omega]
      exact hat

/-- Without an overrun, a distance of `D1 + D2` puts the meeting in the other thread's level. -/
theorem Inv.vid_at_depth (hl : t.Linked) (hi : Inv t s) (ht : Tight t s) {y : Nat}
    (hx : x < t.numHouse) (hy : y < t.numHouse) (hxy : x ≠ y) (hs : Seen s x y)
    (hs' : Seen s y x) (hd : t.dist x y = (metAt s x y).depth + (metAt s y x).depth) :
    (metAt s x y).vid ∈ t.bfsLevel y (metAt s y x).depth := by
  have hm := hi.met x hx y hy hxy hs
  obtain ⟨_, _, h⟩ := hi.searching y hy
  obtain ⟨e, -, hat⟩ := h.at_of_marked hm.theirs
  have hle := ht x hx y hy hxy hs hs' e hat
  have htri : t.dist x y ≤ _ := hm.level.triangle hat.symm (at_dist (hl x hx y hy))
  obtain rfl : e = (metAt s y x).depth := by omega
  exact t.mem_bfsLevel.mpr hat

/-- The loop over the pairs with the largest sum ends early iff one of them is at distance
`D1 + D2`. -/
theorem maxBreaks_iff (hl : t.Linked) (hc : t.FirstOnPath) (hi : Inv t s) (hf : Finished t s) :
    ∀ ps : List (Nat × Nat), (∀ p ∈ ps, Met t s p) →
      ∃ b, maxBreaks s ps = some b ∧ (b = true ↔ ∃ p ∈ ps, t.dist p.1 p.2 = depthSum s p) := by
  intro ps
  induction ps with
  | nil => intro _; exact ⟨false, rfl, by simp⟩
  | cons p ps ih =>
    intro hps
    obtain ⟨b, hb, hiff⟩ := ih fun q hq => hps q (List.mem_cons_of_mem p hq)
    obtain ⟨i, j⟩ := p
    obtain ⟨hi', hj, hij, hsi, hsj⟩ : i < t.numHouse ∧ j < t.numHouse ∧ i ≠ j ∧ Seen s i j ∧
      Seen s j i := hps (i, j) List.mem_cons_self
    have hji := Ne.symm hij
    have hpi := (hi.met i hi' j hj hij hsi).pos
    have hpj := (hi.met j hj i hi' hji hsj).pos
    have hdi := hi.depth_done hi' hj hij hsi (hf i hi')
    have hdj := hi.depth_done hj hi' hji hsj (hf j hj)
    obtain ⟨_, _, hqi⟩ := hi.searching i hi'
    obtain ⟨_, _, hqj⟩ := hi.searching j hj
    have h1 := hqj.finds hj (d := (metAt s j i).depth - 1) (by omega) (hi.vid_lt hi' hj hij hsi)
    have h2 := hqi.finds hi' (d := (metAt s i j).depth - 1) (by omega) (hi.vid_lt hj hi' hji hsj)
    have hshort := hi.shorter_iff hl hc hi' hj hij hsi hsj
    have hle := hi.le_depths hi' hj hij hsi hsj (at_dist (hl i hi' j hj))
    have hge := hi.depths_le hi' hj hij hsi hsj (at_dist (hl i hi' j hj))
    change t.dist i j ≤ _ at hle
    change _ ≤ t.dist i j + 1 at hge
    rw [maxBreaks, h1, h2]
    simp only [Option.bind_eq_bind, Option.bind_some, decide_eq_true_eq,
      List.exists_mem_cons_iff]
    have hsum : depthSum s (i, j) = (metAt s i j).depth + (metAt s j i).depth := rfl
    rw [hsum]
    by_cases hm1 : (metAt s i j).vid ∈ t.bfsLevel j ((metAt s j i).depth - 1)
    · have := hshort.mp (Or.inl hm1)
      rw [if_pos hm1]
      exact ⟨b, hb, hiff.trans (Iff.symm (or_iff_right (by omega)))⟩
    · rw [if_neg hm1]
      by_cases hm2 : (metAt s j i).vid ∈ t.bfsLevel i ((metAt s i j).depth - 1)
      · have := hshort.mp (Or.inr hm2)
        rw [if_pos hm2]
        exact ⟨b, hb, hiff.trans (Iff.symm (or_iff_right (by omega)))⟩
      · have hno : ¬(t.dist i j + 1 = (metAt s i j).depth + (metAt s j i).depth) :=
          fun h => (hshort.mpr h).elim hm1 hm2
        rw [if_neg hm2]
        exact ⟨true, rfl, by simp only [true_iff]; left; omega⟩

/-- The loop over the pairs with the smallest sum, when it reads no fence past the end, ends early
iff one of them is at distance `D1 + D2 - 1`. -/
theorem minBreaks_iff (hl : t.Linked) (hc : t.FirstOnPath) (hi : Inv t s) (ht : Tight t s) :
    ∀ (ps : List (Nat × Nat)) (b : Bool), (∀ p ∈ ps, Met t s p) → minBreaks s ps = some b →
      (b = true ↔ ∃ p ∈ ps, t.dist p.1 p.2 + 1 = depthSum s p) := by
  intro ps
  induction ps with
  | nil => intro b _ hb; cases hb; simp
  | cons p ps ih =>
    intro b hps hb
    obtain ⟨i, j⟩ := p
    obtain ⟨hi', hj, hij, hsi, hsj⟩ : i < t.numHouse ∧ j < t.numHouse ∧ i ≠ j ∧ Seen s i j ∧
      Seen s j i := hps (i, j) List.mem_cons_self
    have hji := Ne.symm hij
    have hle := hi.le_depths hi' hj hij hsi hsj (at_dist (hl i hi' j hj))
    have hge := hi.depths_le hi' hj hij hsi hsj (at_dist (hl i hi' j hj))
    change t.dist i j ≤ _ at hle
    change _ ≤ t.dist i j + 1 at hge
    have hcomm : t.dist j i = t.dist i j := SimpleGraph.dist_comm
    have hsum : depthSum s (i, j) = (metAt s i j).depth + (metAt s j i).depth := rfl
    rw [minBreaks] at hb
    rw [List.exists_mem_cons_iff, hsum]
    obtain ⟨b1, hb1, hb⟩ := Option.bind_eq_some_iff.mp hb
    have hiff1 := hi.finds_iff hj (hi.vid_lt hi' hj hij hsi) hb1
    cases b1 with
    | false =>
      cases hb
      refine ⟨fun _ => Or.inl ?_, fun _ => rfl⟩
      by_contra hno
      change ¬t.dist i j + 1 = _ at hno
      have := hi.vid_at_depth hl ht hi' hj hij hsi hsj (by omega)
      exact absurd (hiff1.mpr this) Bool.false_ne_true
    | true =>
      obtain ⟨b2, hb2, hb⟩ := Option.bind_eq_some_iff.mp hb
      have hiff2 := hi.finds_iff hi' (hi.vid_lt hj hi' hji hsj) hb2
      cases b2 with
      | false =>
        cases hb
        refine ⟨fun _ => Or.inl ?_, fun _ => rfl⟩
        by_contra hno
        change ¬t.dist i j + 1 = _ at hno
        have := hi.vid_at_depth hl ht hj hi' hji hsj hsi (by omega)
        exact absurd (hiff2.mpr this) Bool.false_ne_true
      | true =>
        have hno : ¬(t.dist i j + 1 = (metAt s i j).depth + (metAt s j i).depth) :=
          fun h => hi.off_level hl hc hi' hj hij hsi hsj h (hiff1.mp rfl)
        rw [or_iff_right hno]
        exact ih b (fun q hq => hps q (List.mem_cons_of_mem _ hq)) hb

end

end MulticorePrac.Meet
