import MulticorePrac.Lib.Machine
import MulticorePrac.Lib.Bfs
import MulticorePrac.House.Graph

/-!
# Lab4: the search from every house at once (`project1_TA.cpp`)

One `FindMinMaxPath` thread searches from each house.  A vertex has one flag word
for all of them: a thread enters a vertex with a `fetch_and_or` of its own bit, and
the bits that were there tell which threads came before it.  The vertex and the
depth at which a thread first meets another one are kept in `g_visit_info`.

A thread's queue is its array with everything ever enqueued; depth fences stand in
it as `depth + MAX_DEPTH`.  The unlocked test of the own bit and the `fetch_and_or`
are steps of their own.  The depths here are the `int`s before they are stored in
16 bits, and the array is as long as it needs to be.
-/

namespace MulticorePrac.Meet

open House (Bits)

def MAX_VERTICES : Nat := 10000000

def MAX_DEPTH : Nat := MAX_VERTICES + 1

def FLAG (x : Nat) : Bits := (1 : Bits) <<< x

/-! ## `InputGraph` -/

/-- An input within the tables of the program, with pairwise distinct houses. -/
structure Town extends House.Problem where
  vertices_le : numVertices ≤ MAX_VERTICES
  houses_nodup : houses.Nodup

/-- The loop over the houses that sets their flags, from index `i` on. -/
def setFlags : Nat → List Nat → (Nat → Bits) → Nat → Bits
  | _, [], flags => flags
  | i, house :: houses, flags => setFlags (i + 1) houses (Function.update flags house (FLAG i))

def fullFlag : Nat → Bits
  | 0 => 0
  | i + 1 => fullFlag i ||| FLAG i

namespace Town

variable (t : Town)

/-- `g_num_house`. -/
def numHouse : Nat := t.houses.length

/-- The neighbours `g_graph[v][1]`, `g_graph[v][2]`, .. in the order of the input. -/
def gGraph (v : Nat) : List Nat := House.readRows (fun _ => []) t.rows v

/-- `g_vertex_flag` after the input. -/
def gVertexFlag : Nat → Bits := setFlags 0 t.houses (fun _ => 0)

def gFullFlag : Bits := fullFlag t.numHouse

end Town

/-! ## `FindMinMaxPath` -/

structure VisitInfo where
  vid : Nat
  depth : Nat
  deriving DecidableEq, Repr

inductive Pc
  | dequeue
  | test
  | mark (v : Nat)
  | done
  deriving DecidableEq, Repr

/-- The variables of one thread; `nbrs` are the neighbours of the current vertex that are still to
be looked at, and `info` is its row of `g_visit_info`. -/
structure Finder where
  pc : Pc
  visitedFlag : Bits
  queue : List Nat
  front : Nat
  nbrs : List Nat
  currDepth : Nat
  fences : List Nat
  info : Nat → VisitInfo

/-- The thread with index `x` at its loop. -/
def Finder.start (t : Town) (x : Nat) : Finder where
  pc := .dequeue
  visitedFlag := FLAG x
  queue := [t.houseOf x, 0 + MAX_DEPTH]
  front := 0
  nbrs := []
  currDepth := 0
  fences := [0]
  info := fun _ => ⟨0, 0⟩

/-- A dequeued depth fence: the next one is enqueued, and the search ends if everyone is met. -/
def Finder.fence (t : Town) (f : Finder) : Finder :=
  { f with
    front := f.front + 1
    currDepth := f.currDepth + 1
    queue := f.queue ++ [f.currDepth + 1 + MAX_DEPTH]
    fences := f.fences ++ [f.front]
    pc := if f.visitedFlag = t.gFullFlag then .done else .dequeue }

/-- One turn of the `while` loop, up to the neighbours. -/
def Finder.dequeue (t : Town) (f : Finder) : Finder :=
  match f.queue[f.front]? with
  | none => { f with pc := .done }
  | some currNode =>
    if MAX_DEPTH ≤ currNode then f.fence t
    else { f with front := f.front + 1, nbrs := t.gGraph currNode, pc := .test }

/-- The test of the next neighbour's own bit. -/
def Finder.test (flags : Nat → Bits) (x : Nat) (f : Finder) : Finder :=
  match f.nbrs with
  | [] => { f with pc := .dequeue }
  | v :: nbrs =>
    if flags v &&& FLAG x ≠ 0 then { f with nbrs := nbrs }
    else { f with nbrs := nbrs, pc := .mark v }

/-- The loop over the bits of `flag_before`: every thread that is met is given `i`. -/
def record (i : VisitInfo) : Nat → Nat → Bits → (Nat → VisitInfo) → Nat → VisitInfo
  | 0, _, _, info => info
  | fuel + 1, thd, flagBefore, info =>
    if flagBefore = 0 then info
    else record i fuel (thd + 1) (flagBefore >>> 1)
      (if flagBefore &&& 1 ≠ 0 then Function.update info thd i else info)

/-- What the thread does with the old flag of the vertex `v` that it has marked. -/
def Finder.enter (f : Finder) (v : Nat) (flagBefore : Bits) : Finder :=
  let f' :=
    if flagBefore = 0 then f
    else
      let fresh := flagBefore &&& ~~~f.visitedFlag
      { f with
        visitedFlag := f.visitedFlag ||| fresh
        info := record ⟨v, f.currDepth + 1⟩ 64 0 fresh f.info }
  { f' with queue := f.queue ++ [v], pc := .test }

structure St where
  flags : Nat → Bits
  finder : Nat → Finder

def St.setFinder (s : St) (x : Nat) (f : Finder) : St :=
  { s with finder := Function.update s.finder x f }

/-- The next step of the thread with index `x`. -/
def step (t : Town) (s : St) (x : Nat) : Option St :=
  let f := s.finder x
  if x < t.numHouse then
    match f.pc with
    | .dequeue => some (s.setFinder x (f.dequeue t))
    | .test => some (s.setFinder x (f.test s.flags x))
    | .mark v => some { s.setFinder x (f.enter v (s.flags v)) with
        flags := Function.update s.flags v (s.flags v ||| FLAG x) }
    | .done => none
  else none

def machine (t : Town) : Machine St Nat where
  init := ⟨t.gVertexFlag, Finder.start t⟩
  step := step t

/-- Thread `x` has met thread `y`. -/
def Seen (s : St) (x y : Nat) : Prop := (s.finder x).visitedFlag.getLsbD y = true

/-- Vertex `v` has the bit of thread `x`. -/
def Marked (s : St) (x v : Nat) : Prop := (s.flags v).getLsbD x = true

instance (s : St) (x y : Nat) : Decidable (Seen s x y) := inferInstanceAs (Decidable (_ = true))

instance (s : St) (x v : Nat) : Decidable (Marked s x v) := inferInstanceAs (Decidable (_ = true))

/-! ## The flag words -/

theorem getLsbD_FLAG (x y : Nat) : (FLAG x).getLsbD y = (decide (y < 64) && decide (x = y)) := by
  show (BitVec.twoPow 64 x).getLsbD y = _
  rw [BitVec.getLsbD_twoPow]
  by_cases hxy : x = y
  · subst hxy; simp
  · simp [hxy]

theorem getLsbD_fullFlag {y : Nat} (hy : y < 64) :
    ∀ n, (fullFlag n).getLsbD y = decide (y < n) := by
  intro n
  induction n with
  | zero => simp [fullFlag]
  | succ n ih =>
    rw [fullFlag, BitVec.getLsbD_or, ih, getLsbD_FLAG]
    by_cases hyn : n = y
    · subst hyn; simp [hy]
    · have : y < n ↔ y < n + 1 := by omega
      simp [hyn, this]

/-- The test of the own bit. -/
theorem and_FLAG_ne_zero {x : Nat} (hx : x < 64) (b : Bits) :
    b &&& FLAG x ≠ 0 ↔ b.getLsbD x = true := by
  constructor
  · intro h
    by_contra hb
    refine h (BitVec.eq_of_getLsbD_eq fun i _ => ?_)
    rw [BitVec.getLsbD_and, getLsbD_FLAG]
    by_cases hi : x = i
    · subst hi; simp [hb]
    · simp [hi]
  · intro hb h
    have hbit : (b &&& FLAG x).getLsbD x = true := by
      rw [BitVec.getLsbD_and, getLsbD_FLAG, hb]
      simp [hx]
    rw [h] at hbit
    simp at hbit

theorem record_spec (i : VisitInfo) (y : Nat) :
    ∀ (fuel thd : Nat) (b : Bits) (info : Nat → VisitInfo),
      (∀ j, fuel ≤ j → b.getLsbD j = false) →
      record i fuel thd b info y = if thd ≤ y ∧ b.getLsbD (y - thd) = true then i else info y := by
  intro fuel
  induction fuel with
  | zero =>
    intro thd b info hb
    rw [record, if_neg]
    rintro ⟨-, h⟩
    rw [hb _ (Nat.zero_le _)] at h
    cases h
  | succ fuel ih =>
    intro thd b info hb
    by_cases h0 : b = 0
    · subst h0; simp [record]
    · rw [record, if_neg h0, ih]
      · have h1 : b &&& FLAG 0 ≠ 0 ↔ b.getLsbD 0 = true := and_FLAG_ne_zero (by decide) b
        rw [show FLAG 0 = 1 from rfl] at h1
        have hother : y ≠ thd →
            (if b &&& 1 ≠ 0 then Function.update info thd i else info) y = info y := by
          intro hne
          split
          · rw [Function.update_of_ne hne]
          · rfl
        rw [BitVec.getLsbD_ushiftRight]
        rcases Nat.lt_trichotomy y thd with hlt | rfl | hgt
        · rw [hother (by omega), if_neg (fun h => absurd h.1 (by omega)),
            if_neg (fun h => absurd h.1 (by omega))]
        · rw [if_neg (fun h => absurd h.1 (by omega)), Nat.sub_self]
          by_cases hb0 : b.getLsbD 0 = true
          · rw [if_pos (h1.mpr hb0), Function.update_self, if_pos ⟨Nat.le_refl _, hb0⟩]
          · rw [if_neg (fun h => hb0 (h1.mp h)), if_neg (fun h => hb0 h.2)]
        · rw [show 1 + (y - (thd + 1)) = y - thd by omega]
          by_cases hbit : b.getLsbD (y - thd) = true
          · rw [if_pos ⟨hgt, hbit⟩, if_pos ⟨by omega, hbit⟩]
          · rw [hother (by omega), if_neg (fun h => hbit h.2), if_neg (fun h => hbit h.2)]
      · intro j hj
        rw [BitVec.getLsbD_ushiftRight]
        exact hb _ (by omega)

/-! ## What a thread knows after it has entered a vertex -/

namespace Finder

variable (f : Finder) (v : Nat) (b : Bits)

theorem enter_pc : (f.enter v b).pc = .test := rfl

theorem enter_queue : (f.enter v b).queue = f.queue ++ [v] := rfl

theorem enter_rest : (f.enter v b).front = f.front ∧ (f.enter v b).nbrs = f.nbrs ∧
    (f.enter v b).currDepth = f.currDepth ∧ (f.enter v b).fences = f.fences := by
  unfold enter
  split <;> exact ⟨rfl, rfl, rfl, rfl⟩

theorem enter_seen {y : Nat} (hy : y < 64) : (f.enter v b).visitedFlag.getLsbD y = true ↔
    f.visitedFlag.getLsbD y = true ∨ b.getLsbD y = true := by
  unfold enter
  by_cases h0 : b = 0
  · simp [h0]
  · simp only [if_neg h0, BitVec.getLsbD_or, BitVec.getLsbD_and, BitVec.getLsbD_not, hy]
    cases f.visitedFlag.getLsbD y <;> simp

/-- The first meeting is recorded, and no later one. -/
theorem enter_info {y : Nat} (hy : y < 64) : (f.enter v b).info y =
    if b.getLsbD y = true ∧ f.visitedFlag.getLsbD y ≠ true then ⟨v, f.currDepth + 1⟩
    else f.info y := by
  unfold enter
  by_cases h0 : b = 0
  · simp [h0]
  · simp only [if_neg h0]
    rw [record_spec _ _ _ _ _ _ (fun j hj => BitVec.getLsbD_of_ge _ _ hj)]
    simp [hy]

end Finder

end MulticorePrac.Meet
