import MulticorePrac.Lib.Level
import Mathlib.Data.Finset.Card
import Mathlib.Order.Interval.Finset.Nat

/-!
# Project1: the input and the context (`reader.cpp`, `context.h`, `util.cpp`)

`Reader::Read` takes the houses, the number of vertices and rows of neighbours,
and fills the global context: the house flags, the index of each house vertex (the
last one when a house is listed twice) and the adjacency lists, where every
neighbour of a row is entered on both sides.  `Problem` is an input as the
program expects it; `Problem.graph` is the undirected graph that its rows give.
-/

namespace MulticorePrac.House

def MAX_EDGES_PER_VERTEX : Nat := 10

def MAX_HOUSE : Nat := 64

def INT_MAX : Nat := 2147483647

/-! ## `Reader::Read` -/

structure Context where
  numVertices : Nat
  houses : List Nat
  houseBitmap : Nat → Bool
  houseIndexMap : Nat → Nat
  adjlist : Nat → List Nat

/-- The loop over the houses, from index `i` on. -/
def readHouses : Nat → List Nat → (Nat → Bool) → (Nat → Nat) → (Nat → Bool) × (Nat → Nat)
  | _, [], bitmap, index => (bitmap, index)
  | i, house :: houses, bitmap, index =>
    readHouses (i + 1) houses (Function.update bitmap house true) (Function.update index house i)

/-- `AdjInfo::PushBack` on `adjlist[v]`. -/
def pushBack (adj : Nat → List Nat) (v w : Nat) : Nat → List Nat :=
  Function.update adj v (adj v ++ [w])

/-- The neighbours of one row. -/
def readRow (adj : Nat → List Nat) (v : Nat) : List Nat → Nat → List Nat
  | [] => adj
  | w :: ws => readRow (pushBack (pushBack adj v w) w v) v ws

def readRows (adj : Nat → List Nat) : List (Nat × List Nat) → Nat → List Nat
  | [] => adj
  | row :: rows => readRows (readRow adj row.1 row.2) rows

def read (houses : List Nat) (numVertices : Nat) (rows : List (Nat × List Nat)) : Context where
  numVertices := numVertices
  houses := houses
  houseBitmap := (readHouses 0 houses (fun _ => false) (fun _ => 0)).1
  houseIndexMap := (readHouses 0 houses (fun _ => false) (fun _ => 0)).2
  adjlist := readRows (fun _ => []) rows

/-- How often `v` stands in a row, at its front or in its list. -/
def incidences (rows : List (Nat × List Nat)) (v : Nat) : Nat :=
  (rows.map fun row => (if row.1 = v then row.2.length else 0) + row.2.count v).sum

/-- An input with the bounds that the program's tables have. -/
structure Problem where
  houses : List Nat
  numVertices : Nat
  rows : List (Nat × List Nat)
  houses_le : houses.length ≤ MAX_HOUSE
  houses_range : ∀ h ∈ houses, 1 ≤ h ∧ h ≤ numVertices
  vertices_lt : numVertices < INT_MAX
  rows_range : ∀ row ∈ rows, (1 ≤ row.1 ∧ row.1 ≤ numVertices) ∧
    ∀ w ∈ row.2, 1 ≤ w ∧ w ≤ numVertices
  degree_le : ∀ v, incidences rows v ≤ MAX_EDGES_PER_VERTEX

def Problem.context (p : Problem) : Context := read p.houses p.numVertices p.rows

/-- The undirected graph of the rows. -/
def Problem.graph (p : Problem) : SimpleGraph Nat :=
  SimpleGraph.fromRel fun u v => ∃ row ∈ p.rows, row.1 = u ∧ v ∈ row.2

/-- An input is within the bounds; the degrees need a look at the vertices only. -/
def Fits (houses : List Nat) (numVertices : Nat) (rows : List (Nat × List Nat)) : Prop :=
  houses.length ≤ MAX_HOUSE ∧ (∀ h ∈ houses, 1 ≤ h ∧ h ≤ numVertices) ∧ numVertices < INT_MAX ∧
    (∀ row ∈ rows, (1 ≤ row.1 ∧ row.1 ≤ numVertices) ∧ ∀ w ∈ row.2, 1 ≤ w ∧ w ≤ numVertices) ∧
    ∀ v ∈ List.range (numVertices + 1), incidences rows v ≤ MAX_EDGES_PER_VERTEX

instance (houses : List Nat) (numVertices : Nat) (rows : List (Nat × List Nat)) :
    Decidable (Fits houses numVertices rows) :=
  inferInstanceAs (Decidable (_ ∧ _ ∧ _ ∧ _ ∧ _))

theorem incidences_eq_zero {rows : List (Nat × List Nat)} {v : Nat}
    (h : ∀ row ∈ rows, row.1 ≠ v ∧ v ∉ row.2) : incidences rows v = 0 := by
  unfold incidences
  refine List.sum_eq_zero fun x hx => ?_
  obtain ⟨row, hrow, rfl⟩ := List.mem_map.mp hx
  rw [if_neg (h row hrow).1, List.count_eq_zero.mpr (h row hrow).2, Nat.add_zero]

/-- An input that was checked. -/
def Problem.ofFits (houses : List Nat) (numVertices : Nat) (rows : List (Nat × List Nat))
    (h : Fits houses numVertices rows) : Problem where
  houses := houses
  numVertices := numVertices
  rows := rows
  houses_le := h.1
  houses_range := h.2.1
  vertices_lt := h.2.2.1
  rows_range := h.2.2.2.1
  degree_le v := by
    by_cases hv : v < numVertices + 1
    · exact h.2.2.2.2 v (List.mem_range.mpr hv)
    · rw [incidences_eq_zero fun row hrow => ?_]
      · exact Nat.zero_le _
      · obtain ⟨⟨-, hle⟩, hall⟩ := h.2.2.2.1 row hrow
        refine ⟨by omega, fun hmem => ?_⟩
        have := (hall v hmem).2
        omega

/-! ## The house tables -/

theorem readHouses_bitmap (v : Nat) :
    ∀ (hs : List Nat) (i : Nat) (b : Nat → Bool) (x : Nat → Nat),
      (readHouses i hs b x).1 v = true ↔ v ∈ hs ∨ b v = true := by
  intro hs
  induction hs with
  | nil => intro i b x; simp [readHouses]
  | cons h hs ih =>
    intro i b x
    unfold readHouses
    rw [ih]
    by_cases hv : v = h
    · subst hv; simp
    · simp [hv]

/-- The index of a house vertex is below the number of houses and names the vertex. -/
theorem readHouses_index (v : Nat) :
    ∀ (hs : List Nat) (i : Nat) (b : Nat → Bool) (x : Nat → Nat), v ∈ hs →
      i ≤ (readHouses i hs b x).2 v ∧ hs[(readHouses i hs b x).2 v - i]? = some v := by
  intro hs
  induction hs with
  | nil => intro i b x hv; simp at hv
  | cons h hs ih =>
    intro i b x hv
    unfold readHouses
    by_cases hmem : v ∈ hs
    · obtain ⟨h1, h2⟩ := ih (i + 1) (Function.update b h true) (Function.update x h i) hmem
      refine ⟨by omega, ?_⟩
      rw [show ∀ k, i + 1 ≤ k → k - i = (k - (i + 1)) + 1 from fun k hk => by omega]
      · rw [List.getElem?_cons_succ]
        exact h2
      · exact h1
    · -- the last occurrence: the rest of the loop does not touch it
      have hvh : v = h := by
        rcases List.mem_cons.mp hv with hv | hv
        · exact hv
        · exact absurd hv hmem
      have hrest : ∀ (hs : List Nat) (k : Nat) (b : Nat → Bool) (x : Nat → Nat), v ∉ hs →
          (readHouses k hs b x).2 v = x v := by
        intro hs
        induction hs with
        | nil => intro k b x _; rfl
        | cons h' hs ih' =>
          intro k b x hn
          simp only [List.mem_cons, not_or] at hn
          unfold readHouses
          rw [ih' _ _ _ hn.2, Function.update_of_ne hn.1]
      rw [hrest hs (i + 1) _ _ hmem, hvh, Function.update_self]
      simp

namespace Problem

variable (p : Problem)

theorem mem_houseBitmap {v : Nat} : p.context.houseBitmap v = true ↔ v ∈ p.houses := by
  show (readHouses 0 p.houses _ _).1 v = true ↔ _
  rw [readHouses_bitmap]
  simp

/-- The house vertex with index `i`. -/
def houseOf (i : Nat) : Nat := p.houses.getD i 0

theorem houseOf_mem {i : Nat} (hi : i < p.houses.length) : p.houseOf i ∈ p.houses := by
  unfold houseOf
  rw [List.getD_eq_getElem?_getD, List.getElem?_eq_getElem hi]
  exact List.getElem_mem hi

theorem index_lt {v : Nat} (hv : v ∈ p.houses) : p.context.houseIndexMap v < p.houses.length := by
  have h := (readHouses_index v p.houses 0 (fun _ => false) (fun _ => 0) hv).2
  rw [Nat.sub_zero] at h
  obtain ⟨hlt, -⟩ := List.getElem?_eq_some_iff.mp h
  exact hlt

theorem houseOf_index {v : Nat} (hv : v ∈ p.houses) : p.houseOf (p.context.houseIndexMap v) = v := by
  have h := (readHouses_index v p.houses 0 (fun _ => false) (fun _ => 0) hv).2
  rw [Nat.sub_zero] at h
  unfold houseOf
  rw [List.getD_eq_getElem?_getD]
  show (p.houses[(readHouses 0 p.houses _ _).2 v]?).getD 0 = v
  rw [h]
  rfl

end Problem

/-! ## The adjacency lists -/

theorem mem_pushBack {adj : Nat → List Nat} {v w a b : Nat} :
    b ∈ pushBack adj v w a ↔ b ∈ adj a ∨ (a = v ∧ b = w) := by
  unfold pushBack
  by_cases ha : a = v
  · subst ha; simp
  · simp [ha]

theorem mem_readRow {v a b : Nat} :
    ∀ (ws : List Nat) (adj : Nat → List Nat),
      b ∈ readRow adj v ws a ↔ b ∈ adj a ∨ (a = v ∧ b ∈ ws) ∨ (b = v ∧ a ∈ ws) := by
  intro ws
  induction ws with
  | nil => intro adj; simp [readRow]
  | cons w ws ih =>
    intro adj
    unfold readRow
    rw [ih, mem_pushBack, mem_pushBack]
    simp only [List.mem_cons]
    tauto

theorem mem_readRows {a b : Nat} :
    ∀ (rows : List (Nat × List Nat)) (adj : Nat → List Nat),
      b ∈ readRows adj rows a ↔ b ∈ adj a ∨
        ∃ row ∈ rows, (row.1 = a ∧ b ∈ row.2) ∨ (row.1 = b ∧ a ∈ row.2) := by
  intro rows
  induction rows with
  | nil => intro adj; simp [readRows]
  | cons row rows ih =>
    intro adj
    unfold readRows
    rw [ih, mem_readRow]
    simp only [List.exists_mem_cons_iff, eq_comm (a := row.1)]
    rw [or_assoc]

theorem length_pushBack (adj : Nat → List Nat) (v w a : Nat) :
    (pushBack adj v w a).length = (adj a).length + if v = a then 1 else 0 := by
  unfold pushBack
  by_cases ha : a = v
  · subst ha; simp
  · simp [Function.update_of_ne ha, Ne.symm ha]

theorem length_readRow (v a : Nat) :
    ∀ (ws : List Nat) (adj : Nat → List Nat), (readRow adj v ws a).length =
      (adj a).length + ((if v = a then ws.length else 0) + ws.count a) := by
  intro ws
  induction ws with
  | nil => intro adj; simp [readRow]
  | cons w ws ih =>
    intro adj
    unfold readRow
    rw [ih, length_pushBack, length_pushBack, List.count_cons, List.length_cons]
    by_cases hv : v = a <;> by_cases hw : w = a <;> simp [hv, hw] <;> omega

theorem length_readRows (a : Nat) :
    ∀ (rows : List (Nat × List Nat)) (adj : Nat → List Nat),
      (readRows adj rows a).length = (adj a).length + incidences rows a := by
  intro rows
  induction rows with
  | nil => intro adj; simp [readRows, incidences]
  | cons row rows ih =>
    intro adj
    unfold readRows
    rw [ih, length_readRow]
    unfold incidences
    rw [List.map_cons, List.sum_cons]
    omega

namespace Problem

variable (p : Problem)

theorem length_adjlist (v : Nat) : (p.context.adjlist v).length ≤ MAX_EDGES_PER_VERTEX := by
  show (readRows (fun _ => []) p.rows v).length ≤ _
  rw [length_readRows]
  simpa using p.degree_le v

/-- The lists hold the graph, and perhaps loops. -/
theorem mem_adjlist {u v : Nat} (h : v ∈ p.context.adjlist u) : u = v ∨ p.graph.Adj u v := by
  have h' := (mem_readRows p.rows (fun _ => [])).mp h
  simp only [List.not_mem_nil, false_or] at h'
  obtain ⟨row, hr, hc⟩ := h'
  by_cases huv : u = v
  · exact Or.inl huv
  · right
    rw [graph, SimpleGraph.fromRel_adj]
    refine ⟨huv, ?_⟩
    rcases hc with ⟨h1, h2⟩ | ⟨h1, h2⟩
    · exact Or.inl ⟨row, hr, h1, h2⟩
    · exact Or.inr ⟨row, hr, h1, h2⟩

theorem adjlist_of_adj {u v : Nat} (h : p.graph.Adj u v) : v ∈ p.context.adjlist u := by
  rw [graph, SimpleGraph.fromRel_adj] at h
  show v ∈ readRows (fun _ => []) p.rows u
  rw [mem_readRows]
  right
  rcases h.2 with ⟨row, hr, h1, h2⟩ | ⟨row, hr, h1, h2⟩
  · exact ⟨row, hr, Or.inl ⟨h1, h2⟩⟩
  · exact ⟨row, hr, Or.inr ⟨h1, h2⟩⟩

theorem adj_range {u v : Nat} (h : p.graph.Adj u v) : 1 ≤ v ∧ v ≤ p.numVertices := by
  rw [graph, SimpleGraph.fromRel_adj] at h
  rcases h.2 with ⟨row, hr, h1, h2⟩ | ⟨row, hr, h1, h2⟩
  · exact (p.rows_range row hr).2 v h2
  · rw [← h1]
    exact (p.rows_range row hr).1

theorem adjlist_range {u v : Nat} (h : v ∈ p.context.adjlist u) : 1 ≤ v ∧ v ≤ p.numVertices := by
  have h' := (mem_readRows p.rows (fun _ => [])).mp h
  simp only [List.not_mem_nil, false_or] at h'
  obtain ⟨row, hr, hc⟩ := h'
  rcases hc with ⟨h1, h2⟩ | ⟨h1, h2⟩
  · exact (p.rows_range row hr).2 v h2
  · rw [← h1]
    exact (p.rows_range row hr).1

/-- A search that starts at a vertex stays among the vertices. -/
theorem at_range {s d v : Nat} (hs : 1 ≤ s ∧ s ≤ p.numVertices) (h : At p.graph s d v) :
    1 ≤ v ∧ v ≤ p.numVertices := by
  cases d with
  | zero => rw [← at_zero.mp h]; exact hs
  | succ d =>
    obtain ⟨u, -, ha⟩ := h.pred
    exact p.adj_range ha

/-- Distances are below the number of vertices: each level has a vertex of its own. -/
theorem at_lt {s d v : Nat} (hs : 1 ≤ s ∧ s ≤ p.numVertices) (h : At p.graph s d v) :
    d < p.numVertices := by
  have hex : ∀ e, ∃ u, e ≤ d → At p.graph s e u := by
    intro e
    by_cases he : e ≤ d
    · obtain ⟨u, hu⟩ := h.below e he
      exact ⟨u, fun _ => hu⟩
    · exact ⟨0, fun h => absurd h he⟩
  choose f hf using hex
  have hcard : (Finset.range (d + 1)).card ≤ (Finset.Icc 1 p.numVertices).card := by
    refine Finset.card_le_card_of_injOn f (fun e he => ?_) (fun e he e' he' hee => ?_)
    · rw [Finset.mem_coe, Finset.mem_range] at he
      rw [Finset.mem_coe, Finset.mem_Icc]
      exact p.at_range hs (hf e (by omega))
    · rw [Finset.mem_coe, Finset.mem_range] at he he'
      have h1 := hf e (by omega)
      rw [hee] at h1
      exact h1.inj (hf e' (by omega))
  rw [Finset.card_range, Nat.card_Icc] at hcard
  omega

end Problem

/-! ## Counting the vertices left -/

/-- Vertices that a search has not checked. -/
def unchecked (p : Problem) (check : Nat → Bool) : Nat :=
  ((List.range (p.numVertices + 1)).filter fun v => !check v).length

theorem unchecked_le (p : Problem) (check : Nat → Bool) : unchecked p check ≤ p.numVertices + 1 := by
  unfold unchecked
  have := List.length_filter_le (fun v => !check v) (List.range (p.numVertices + 1))
  rwa [List.length_range] at this

theorem unchecked_mark {p : Problem} {check : Nat → Bool} {v : Nat} (hv : v ≤ p.numVertices)
    (hc : check v = false) : unchecked p (Function.update check v true) < unchecked p check := by
  unfold unchecked
  rw [← List.countP_eq_length_filter, ← List.countP_eq_length_filter]
  have hsplit : List.countP (fun u => !check u) (List.range (p.numVertices + 1)) =
      List.countP (fun u => !Function.update check v true u) (List.range (p.numVertices + 1)) +
        List.countP (fun u => u == v) (List.range (p.numVertices + 1)) := by
    induction List.range (p.numVertices + 1) with
    | nil => rfl
    | cons u l ih =>
      rw [List.countP_cons, List.countP_cons, List.countP_cons, ih]
      by_cases huv : u = v
      · subst huv; simp [hc]; omega
      · simp [huv]; omega
  have hpos : 0 < List.countP (fun u => u == v) (List.range (p.numVertices + 1)) := by
    rw [List.countP_pos_iff]
    exact ⟨v, List.mem_range.mpr (by omega), by simp⟩
  omega

/-! ## `g_pow2` and the bitmaps -/

abbrev Bits := BitVec 64

def gPow2 : Nat → Bits
  | 0 => 1
  | i + 1 => gPow2 i * 2

theorem gPow2_eq : ∀ i, gPow2 i = BitVec.twoPow 64 i := by
  intro i
  induction i with
  | zero => rfl
  | succ i ih =>
    unfold gPow2
    rw [ih, show (2 : Bits) = BitVec.twoPow 64 1 from rfl, BitVec.twoPow_mul_twoPow_eq]

theorem getLsbD_gPow2 (i j : Nat) : (gPow2 i).getLsbD j = (decide (j < 64) && decide (i = j)) := by
  rw [gPow2_eq, BitVec.getLsbD_twoPow]
  by_cases hij : i = j
  · subst hij; simp
  · simp [hij]

/-- `full_visit_bits`: one bit for each index below `n` but `start`. -/
def fullVisitBits (start : Nat) : Nat → Bits
  | 0 => 0
  | i + 1 => if i = start then fullVisitBits start i else fullVisitBits start i ||| gPow2 i

theorem getLsbD_fullVisitBits (start j : Nat) (hj : j < 64) :
    ∀ n, (fullVisitBits start n).getLsbD j = (decide (j < n) && decide (j ≠ start)) := by
  intro n
  induction n with
  | zero => simp [fullVisitBits]
  | succ n ih =>
    unfold fullVisitBits
    by_cases hn : n = start
    · rw [if_pos hn, ih]
      by_cases hjs : j = start
      · simp [hjs]
      · have : j < n ↔ j < n + 1 := by omega
        simp [hjs, this]
    · rw [if_neg hn, BitVec.getLsbD_or, ih, getLsbD_gPow2]
      by_cases hjn : n = j
      · subst hjn; simp [hj, hn]
      · have : j < n ↔ j < n + 1 := by omega
        simp [hjn, this]

end MulticorePrac.House
