import MulticorePrac.House.Graph
import Mathlib.Data.List.Iterate

/-!
# Project1: the strip of the test maker (`Project1TestMaker/tri/main.cpp`)

The test maker prints an input for `num_vertices` vertices: 64 houses, half of them from
each end, and a strip of triangles in which vertex `i` is joined to `i + 1` (for odd `i`)
and to `i + 2`.  The number of lines, the lines and the last line come from separate
formulas for even and odd sizes.

`Reader.read` is `Reader::Read` on the numbers of an input.  It takes back what is printed
(`read_print`), and finds in the strip a context with everything that the search relies
on.  The only size that fails is `INT_MAX`, where `num_vertices + 1` is not an `int`
(`strip_read_iff`).
-/

namespace MulticorePrac.House

/-! ## `Reader::Read` on a list of numbers -/

/-- The value of an `int` expression. -/
def int32 (x : Int) : Int := Int.bmod x (2 ^ 32)

/-- So many calls of `scanf` for one number; `none` if the input ends before. -/
def scanInts : Nat → List Nat → Option (List Nat × List Nat)
  | 0, input => some ([], input)
  | _ + 1, [] => none
  | n + 1, x :: input => (scanInts n input).map fun r => (x :: r.1, r.2)

/-- The loop over the lines below. -/
def scanLines : Nat → List Nat → Option (List (Nat × List Nat) × List Nat)
  | 0, input => some ([], input)
  | n + 1, v :: numNeighbors :: input =>
    (scanInts numNeighbors input).bind fun r =>
      (scanLines n r.2).map fun q => ((v, r.1) :: q.1, q.2)
  | _ + 1, _ => none

/-- The context and what is left of the input; `none` if the input ends early or the size
`num_vertices + 1` of the tables is negative. -/
def Reader.read (input : List Nat) : Option (Context × List Nat) :=
  match input with
  | [] => none
  | N :: input =>
    (scanInts N input).bind fun r =>
      match r.2 with
      | numVertices :: numLineBelow :: input =>
        if int32 (numVertices + 1) < 0 then none
        else (scanLines numLineBelow input).map fun q => (House.read r.1 numVertices q.1, q.2)
      | _ => none

/-- The numbers of a row. -/
def printRow (row : Nat × List Nat) : List Nat := row.1 :: row.2.length :: row.2

theorem scanInts_append (rest : List Nat) :
    ∀ xs : List Nat, scanInts xs.length (xs ++ rest) = some (xs, rest) := by
  intro xs
  induction xs with
  | nil => rfl
  | cons x xs ih =>
    rw [List.length_cons, List.cons_append, scanInts, ih]
    rfl

theorem scanLines_print (rest : List Nat) : ∀ rows : List (Nat × List Nat),
    scanLines rows.length (rows.flatMap printRow ++ rest) = some (rows, rest) := by
  intro rows
  induction rows with
  | nil => rfl
  | cons row rows ih =>
    rw [List.length_cons, List.flatMap_cons, List.append_assoc]
    show ((scanInts row.2.length (row.2 ++ (rows.flatMap printRow ++ rest))).bind fun r =>
      (scanLines rows.length r.2).map fun q => ((row.1, r.1) :: q.1, q.2)) = _
    rw [scanInts_append, Option.bind_some, ih]
    rfl

/-- The reader takes back what is printed, if the size of the tables is an `int`. -/
theorem read_print (houses : List Nat) (numVertices : Nat) (rows : List (Nat × List Nat)) :
    Reader.read (houses.length :: (houses ++ (numVertices :: rows.length :: rows.flatMap printRow))) =
      if int32 (numVertices + 1) < 0 then none
      else some (House.read houses numVertices rows, []) := by
  have hlines := scanLines_print [] rows
  rw [List.append_nil] at hlines
  rw [Reader.read, scanInts_append, Option.bind_some]
  show (if _ then none else (scanLines rows.length (rows.flatMap printRow)).map _) = _
  rw [hlines]
  rfl

/-! ## The test maker -/

/-- The loop over the houses from the start, with `count` turns left. -/
def housesUp : Nat → Nat → List Nat
  | 0, _ => []
  | count + 1, i => i :: housesUp count (i + 2)

/-- The loop over the houses from the end. -/
def housesDown : Nat → Nat → List Nat
  | 0, _ => []
  | count + 1, i => i :: housesDown count (i - 2)

/-- The second line after the houses. -/
def numLines (numVertices : Nat) : Nat :=
  if numVertices % 2 = 0 then numVertices - 1 else numVertices - 2

/-- The lines from vertex `i` on, with so many turns of the loop left and the last line. -/
def stripLines : Nat → Nat → List Nat
  | 0, i => if i % 2 = 1 then [i, 1, i + 1] else []
  | turns + 1, i =>
    (if i % 2 = 1 then [i, 2, i + 1, i + 2] else [i, 1, i + 2]) ++ stripLines turns (i + 1)

/-- The output of `main`. -/
def testMaker (numVertices : Nat) : List Nat :=
  64 :: (housesUp 32 1 ++ housesDown 32 (numVertices - 1)) ++
    numVertices :: numLines numVertices :: stripLines (numVertices - 2) 1

/-! ## The rows and the houses of the output -/

def stripHouses (numVertices : Nat) : List Nat := housesUp 32 1 ++ housesDown 32 (numVertices - 1)

def stripRows : Nat → Nat → List (Nat × List Nat)
  | 0, i => if i % 2 = 1 then [(i, [i + 1])] else []
  | turns + 1, i =>
    (i, if i % 2 = 1 then [i + 1, i + 2] else [i + 2]) :: stripRows turns (i + 1)

theorem stripLines_eq : ∀ turns i, stripLines turns i = (stripRows turns i).flatMap printRow := by
  intro turns
  induction turns with
  | zero =>
    intro i
    unfold stripLines stripRows
    split <;> rfl
  | succ turns ih =>
    intro i
    rw [stripLines, stripRows, List.flatMap_cons, ih]
    congr 1
    split <;> rfl

theorem length_stripRows : ∀ turns i,
    (stripRows turns i).length = turns + (i + turns) % 2 := by
  intro turns
  induction turns with
  | zero =>
    intro i
    unfold stripRows
    split <;> simp <;> omega
  | succ turns ih =>
    intro i
    rw [stripRows, List.length_cons, ih]
    omega

theorem mem_stripRows {row : Nat × List Nat} : ∀ {turns i}, row ∈ stripRows turns i →
    (∃ j, i ≤ j ∧ j < i + turns ∧ row = (j, if j % 2 = 1 then [j + 1, j + 2] else [j + 2])) ∨
      row = (i + turns, [i + turns + 1]) := by
  intro turns
  induction turns with
  | zero =>
    intro i h
    unfold stripRows at h
    split at h
    · exact Or.inr (List.mem_singleton.mp h)
    · cases h
  | succ turns ih =>
    intro i h
    rw [stripRows, List.mem_cons] at h
    rcases h with rfl | h
    · exact Or.inl ⟨i, Nat.le_refl i, by omega, rfl⟩
    · rw [show i + (turns + 1) = i + 1 + turns by omega]
      rcases ih h with ⟨j, h1, h2, rfl⟩ | rfl
      · exact Or.inl ⟨j, by omega, h2, rfl⟩
      · exact Or.inr rfl

theorem stripRows_mem : ∀ turns i j, i ≤ j → j < i + turns →
    (j, if j % 2 = 1 then [j + 1, j + 2] else [j + 2]) ∈ stripRows turns i := by
  intro turns
  induction turns with
  | zero => intro i j h1 h2; omega
  | succ turns ih =>
    intro i j h1 h2
    rw [stripRows, List.mem_cons]
    by_cases hj : j = i
    · subst hj; exact Or.inl rfl
    · exact Or.inr (ih (i + 1) j (by omega) (by omega))

/-- How often a vertex stands in the rows: at the front of its own row, after its predecessor if
it is even, and after the vertex two before it. -/
theorem incidences_stripRows (v : Nat) : ∀ turns i, incidences (stripRows turns i) v =
    (if i ≤ v ∧ v < i + turns then 2 - (v + 1) % 2 else if v = i + turns then v % 2 else 0) +
      (if v % 2 = 0 ∧ i + 1 ≤ v ∧ v ≤ i + turns + 1 then 1 else 0) +
      (if i + 2 ≤ v ∧ v < i + turns + 2 then 1 else 0) := by
  intro turns
  induction turns with
  | zero =>
    intro i
    unfold stripRows incidences
    by_cases hi : i % 2 = 1
    · simp only [if_pos hi, List.map_cons, List.map_nil, List.sum_cons, List.sum_nil,
        List.length_singleton, List.count_singleton, beq_iff_eq]
      split_ifs <;> omega
    · simp only [if_neg hi, List.map_nil, List.sum_nil]
      split_ifs <;> omega
  | succ turns ih =>
    intro i
    have hcons : incidences (stripRows (turns + 1) i) v =
        ((if i = v then (if i % 2 = 1 then 2 else 1) else 0) +
          ((if i % 2 = 1 ∧ v = i + 1 then 1 else 0) + (if v = i + 2 then 1 else 0))) +
          incidences (stripRows turns (i + 1)) v := by
      rw [stripRows]
      unfold incidences
      rw [List.map_cons, List.sum_cons]
      by_cases hi : i % 2 = 1
      · simp only [if_pos hi, List.length_cons, List.length_nil, List.count_cons, List.count_nil,
          beq_iff_eq]
        split_ifs <;> omega
      · simp only [if_neg hi, List.length_cons, List.length_nil, List.count_cons, List.count_nil,
          beq_iff_eq]
        split_ifs <;> omega
    -- each of the three parts grows by what the new row adds to it
    have hfront : (if i ≤ v ∧ v < i + (turns + 1) then 2 - (v + 1) % 2
        else if v = i + (turns + 1) then v % 2 else 0) =
        (if i = v then (if i % 2 = 1 then 2 else 1) else 0) +
          (if i + 1 ≤ v ∧ v < i + 1 + turns then 2 - (v + 1) % 2
            else if v = i + 1 + turns then v % 2 else 0) := by
      split_ifs <;> omega
    have hprev : (if v % 2 = 0 ∧ i + 1 ≤ v ∧ v ≤ i + (turns + 1) + 1 then 1 else 0) =
        (if i % 2 = 1 ∧ v = i + 1 then 1 else 0) +
          (if v % 2 = 0 ∧ i + 1 + 1 ≤ v ∧ v ≤ i + 1 + turns + 1 then 1 else 0) := by
      split_ifs <;> omega
    have hprev2 : (if i + 2 ≤ v ∧ v < i + (turns + 1) + 2 then 1 else 0) =
        (if v = i + 2 then 1 else 0) +
          (if i + 1 + 2 ≤ v ∧ v < i + 1 + turns + 2 then 1 else 0) := by
      split_ifs <;> omega
    rw [hcons, ih, hfront, hprev, hprev2]
    omega

theorem housesUp_eq : ∀ count i, housesUp count i = List.iterate (· + 2) i count := by
  intro count
  induction count with
  | zero => intro i; rfl
  | succ count ih => intro i; rw [housesUp, ih]; rfl

theorem housesDown_eq : ∀ count i, housesDown count i = List.iterate (· - 2) i count := by
  intro count
  induction count with
  | zero => intro i; rfl
  | succ count ih => intro i; rw [housesDown, ih]; rfl

theorem mem_housesUp {h count i : Nat} : h ∈ housesUp count i ↔ ∃ k < count, h = i + 2 * k := by
  have hiter : ∀ k, (· + 2)^[k] i = i + 2 * k := by
    intro k
    induction k with
    | zero => rfl
    | succ k ih => rw [Function.iterate_succ_apply', ih]; omega
  rw [housesUp_eq, List.mem_iterate]
  simp only [hiter]

theorem mem_housesDown {h count i : Nat} : h ∈ housesDown count i ↔ ∃ k < count, h = i - 2 * k := by
  have hiter : ∀ k, (· - 2)^[k] i = i - 2 * k := by
    intro k
    induction k with
    | zero => rfl
    | succ k ih => rw [Function.iterate_succ_apply', ih]; omega
  rw [housesDown_eq, List.mem_iterate]
  simp only [hiter]

theorem housesUp_nodup : ∀ count i, (housesUp count i).Nodup := by
  intro count
  induction count with
  | zero => intro i; exact List.nodup_nil
  | succ count ih =>
    intro i
    refine List.nodup_cons.mpr ⟨fun h => ?_, ih (i + 2)⟩
    obtain ⟨k, -, hk⟩ := mem_housesUp.mp h
    omega

theorem housesDown_nodup : ∀ count i, 2 * count ≤ i + 1 → (housesDown count i).Nodup := by
  intro count
  induction count with
  | zero => intro i _; exact List.nodup_nil
  | succ count ih =>
    intro i hi
    refine List.nodup_cons.mpr ⟨fun h => ?_, ih (i - 2) (by omega)⟩
    obtain ⟨k, hk, he⟩ := mem_housesDown.mp h
    omega

/-! ## The context -/

/-- The graph of the adjacency lists. -/
def Context.graph (c : Context) : SimpleGraph Nat := SimpleGraph.fromRel fun u v => v ∈ c.adjlist u

/-- Both sides of an edge are entered, so the lists are symmetric, with multiplicities. -/
theorem count_readRows_comm : ∀ (rows : List (Nat × List Nat)) (adj : Nat → List Nat),
    (∀ a b, (adj a).count b = (adj b).count a) →
      ∀ a b, (readRows adj rows a).count b = (readRows adj rows b).count a := by
  have hpush : ∀ (adj : Nat → List Nat) (v w a b : Nat), (pushBack adj v w a).count b =
      (adj a).count b + if a = v ∧ w = b then 1 else 0 := by
    intro adj v w a b
    unfold pushBack
    by_cases ha : a = v
    · subst ha
      rw [Function.update_self, List.count_append, List.count_singleton]
      simp
    · rw [Function.update_of_ne ha]
      simp [ha]
  have hrow : ∀ (v : Nat) (ws : List Nat) (adj : Nat → List Nat),
      (∀ a b, (adj a).count b = (adj b).count a) →
        ∀ a b, (readRow adj v ws a).count b = (readRow adj v ws b).count a := by
    intro v ws
    induction ws with
    | nil => intro adj h; exact h
    | cons w ws ih =>
      intro adj h
      refine ih _ fun a b => ?_
      rw [hpush, hpush, hpush, hpush, h a b]
      split_ifs <;> omega
  intro rows
  induction rows with
  | nil => intro adj h; exact h
  | cons row rows ih => intro adj h; exact ih _ (hrow row.1 row.2 adj h)

/-- What the search relies on. -/
structure StripRead (numVertices : Nat) (c : Context) : Prop where
  numVertices_eq : c.numVertices = numVertices
  houses_length : c.houses.length = 64
  houses_nodup : c.houses.Nodup
  houses_range : ∀ h ∈ c.houses, 1 ≤ h ∧ h ≤ numVertices
  pushes_le : ∀ v, (c.adjlist v).length ≤ MAX_EDGES_PER_VERTEX
  symm : ∀ u v, (c.adjlist u).count v = (c.adjlist v).count u
  connected : ∀ u v, 1 ≤ u → u ≤ numVertices → 1 ≤ v → v ≤ numVertices → c.graph.Reachable u v

/-- The sizes for which the two halves of the houses do not overlap. -/
def StripSize (n : Nat) : Prop := (n % 2 = 0 ∧ 128 ≤ n) ∨ (n % 2 = 1 ∧ 65 ≤ n)

section
variable {n : Nat}

theorem stripHouses_nodup (hn : StripSize n) : (stripHouses n).Nodup := by
  unfold StripSize at hn
  refine List.nodup_append.mpr ⟨housesUp_nodup 32 1, housesDown_nodup 32 (n - 1) (by omega), ?_⟩
  intro a ha b hb hab
  obtain ⟨j, hj, rfl⟩ := mem_housesUp.mp ha
  obtain ⟨k, hk, rfl⟩ := mem_housesDown.mp hb
  omega

theorem stripHouses_range (hn : StripSize n) : ∀ h ∈ stripHouses n, 1 ≤ h ∧ h ≤ n := by
  unfold StripSize at hn
  intro h hh
  rcases List.mem_append.mp hh with hh | hh
  · obtain ⟨k, hk, rfl⟩ := mem_housesUp.mp hh
    omega
  · obtain ⟨k, hk, rfl⟩ := mem_housesDown.mp hh
    omega

theorem length_stripHouses : (stripHouses n).length = 64 := by
  unfold stripHouses
  rw [List.length_append, housesUp_eq, housesDown_eq, List.length_iterate, List.length_iterate]

theorem numLines_eq (hn : StripSize n) : numLines n = (stripRows (n - 2) 1).length := by
  unfold StripSize at hn
  unfold numLines
  rw [length_stripRows]
  split <;> omega

theorem testMaker_eq (hn : StripSize n) : testMaker n = (stripHouses n).length ::
    (stripHouses n ++ (n :: (stripRows (n - 2) 1).length :: (stripRows (n - 2) 1).flatMap printRow)) := by
  rw [length_stripHouses, ← numLines_eq hn, ← stripLines_eq]
  rfl

theorem incidences_le (v : Nat) : incidences (stripRows (n - 2) 1) v ≤ 10 := by
  rw [incidences_stripRows]
  split_ifs <;> omega

/-- Every vertex is joined to the one two before it, and 2 to 1. -/
theorem strip_connected (h3 : 3 ≤ n) (houses : List Nat) :
    ∀ v, 1 ≤ v → v ≤ n → (read houses n (stripRows (n - 2) 1)).graph.Reachable 1 v := by
  have hadj : ∀ u v, u ≠ v → (∃ row ∈ stripRows (n - 2) 1, row.1 = u ∧ v ∈ row.2) →
      (read houses n (stripRows (n - 2) 1)).graph.Adj u v := by
    rintro u v huv ⟨row, hrow, h1, h2⟩
    refine (SimpleGraph.fromRel_adj _ u v).mpr ⟨huv, Or.inl ?_⟩
    exact (mem_readRows _ _).mpr (Or.inr ⟨row, hrow, Or.inl ⟨h1, h2⟩⟩)
  intro v
  induction v using Nat.strong_induction_on with
  | _ v ih =>
    intro h1 hle
    by_cases hv1 : v = 1
    · subst hv1; exact SimpleGraph.Reachable.refl _
    · by_cases hv2 : v = 2
      · subst hv2
        have hrow := stripRows_mem (n - 2) 1 1 (by omega) (by omega)
        exact (hadj 1 2 (by decide) ⟨_, hrow, rfl, List.mem_cons_self⟩).reachable
      · have hrow := stripRows_mem (n - 2) 1 (v - 2) (by omega) (by omega)
        refine (ih (v - 2) (by omega) (by omega) (by omega)).trans (hadj _ _ (by omega)
          ⟨_, hrow, rfl, ?_⟩).reachable
        show v ∈ if (v - 2) % 2 = 1 then [v - 2 + 1, v - 2 + 2] else [v - 2 + 2]
        rw [show v - 2 + 2 = v by omega]
        split <;> simp

theorem int32_succ (hn : n ≤ INT_MAX) : int32 (n + 1) < 0 ↔ ¬ n < INT_MAX := by
  unfold INT_MAX at *
  unfold int32 Int.bmod
  dsimp only
  split <;> omega

/-- The strip is an input within the program's tables. -/
theorem strip_fits (hn : StripSize n) (hlt : n < INT_MAX) :
    Fits (stripHouses n) n (stripRows (n - 2) 1) := by
  have h3 : 3 ≤ n := by unfold StripSize at hn; omega
  refine ⟨Nat.le_of_eq length_stripHouses, stripHouses_range hn, hlt, fun row hrow => ?_,
    fun v _ => incidences_le v⟩
  rcases mem_stripRows hrow with ⟨j, h1, h2, rfl⟩ | rfl
  · refine ⟨⟨h1, by show j ≤ n; omega⟩, fun w hw => ?_⟩
    have hw' : w = j + 1 ∨ w = j + 2 := by
      change w ∈ (if j % 2 = 1 then [j + 1, j + 2] else [j + 2]) at hw
      split at hw <;> simp at hw <;> omega
    omega
  · refine ⟨⟨by show 1 ≤ 1 + (n - 2); omega, by show 1 + (n - 2) ≤ n; omega⟩, fun w hw => ?_⟩
    rw [List.mem_singleton.mp hw]
    omega

theorem stripRead (hn : StripSize n) : StripRead n (read (stripHouses n) n (stripRows (n - 2) 1)) where
  numVertices_eq := rfl
  houses_length := length_stripHouses
  houses_nodup := stripHouses_nodup hn
  houses_range := stripHouses_range hn
  pushes_le v := by
    show (readRows (fun _ => []) (stripRows (n - 2) 1) v).length ≤ 10
    rw [length_readRows, List.length_nil, Nat.zero_add]
    exact incidences_le v
  symm := count_readRows_comm _ _ fun _ _ => rfl
  connected u v hu hu' hv hv' := by
    have h3 : 3 ≤ n := by unfold StripSize at hn; omega
    exact (strip_connected h3 _ u hu hu').symm.trans (strip_connected h3 _ v hv hv')

end

/-! ## The theorem -/

/-- For the sizes of the test maker that are an `int`: the declared number of lines is that of the
lines printed, and the reader consumes the output and finds 64 distinct houses among the vertices,
no list longer than the array, symmetric lists and a connected graph, iff the size is below
`INT_MAX`. -/
theorem strip_read_iff (n : Nat) (hn : StripSize n) (hint : n ≤ INT_MAX) :
    (numLines n = (stripRows (n - 2) 1).length ∧
      ∃ c, Reader.read (testMaker n) = some (c, []) ∧ StripRead n c) ↔ n < INT_MAX := by
  rw [testMaker_eq hn, read_print]
  constructor
  · rintro ⟨-, c, hc, -⟩
    by_contra hlt
    rw [if_pos ((int32_succ hint).mpr hlt)] at hc
    cases hc
  · intro hlt
    rw [if_neg (fun h => (int32_succ hint).mp h hlt)]
    exact ⟨numLines_eq hn, _, rfl, stripRead hn⟩

theorem strip_read_iff_small :
    (∃ c, Reader.read (testMaker 65) = some (c, []) ∧ StripRead 65 c) ∧
      ∃ c, Reader.read (testMaker 128) = some (c, []) ∧ StripRead 128 c := by
  have hodd : StripSize 65 := Or.inr ⟨rfl, by decide⟩
  have heven : StripSize 128 := Or.inl ⟨rfl, by decide⟩
  exact ⟨((strip_read_iff 65 hodd (by decide)).mpr (by decide)).2,
    ((strip_read_iff 128 heven (by decide)).mpr (by decide)).2⟩

/-- With `INT_MAX` vertices the tables would get a negative size. -/
theorem int_max_not_read : StripSize INT_MAX ∧ Reader.read (testMaker INT_MAX) = none := by
  have hn : StripSize INT_MAX := Or.inr ⟨rfl, by decide⟩
  refine ⟨hn, ?_⟩
  rw [testMaker_eq hn, read_print,
    if_pos ((int32_succ (Nat.le_refl _)).mpr (Nat.lt_irrefl _))]

end MulticorePrac.House
