import Mathlib.Logic.Function.Basic
import Mathlib.Data.List.Basic

/-!
# Chains: singly linked lists in a heap

`Chain h p l`: following `next` from `p` in the heap `h` passes exactly the
nodes of `l` (address and contents) and ends at the null pointer.  A chain reads
only the cells of its nodes (`chain_congr`), and is changed as expected by a push at
the front (`chain_push`) and by unlinking the node after a given one (`chain_unlink`).
-/

namespace MulticorePrac

/-- One list node: the `next` pointer and the contents. -/
structure Cell (α : Type) where
  next : Option Nat
  data : α
  deriving DecidableEq, Repr

abbrev Heap (α : Type) := Nat → Option (Cell α)

variable {α : Type}

/-- The address a list of nodes starts at. -/
def firstAddr (l : List (Nat × α)) : Option Nat := l.head?.map Prod.fst

@[simp] theorem firstAddr_nil : firstAddr ([] : List (Nat × α)) = none := rfl

@[simp] theorem firstAddr_cons (x : Nat × α) (l : List (Nat × α)) :
    firstAddr (x :: l) = some x.1 := rfl

theorem firstAddr_mem {m : List (Nat × α)} {a : Nat} (h : firstAddr m = some a) :
    ∃ d m', m = (a, d) :: m' := by
  cases m with
  | nil => cases h
  | cons y m => exact ⟨y.2, m, by rw [← Option.some.inj h]⟩

def Chain (h : Heap α) : Option Nat → List (Nat × α) → Prop
  | p, [] => p = none
  | p, x :: l => p = some x.1 ∧ ∃ nx, h x.1 = some ⟨nx, x.2⟩ ∧ Chain h nx l

theorem chain_first {h : Heap α} {p : Option Nat} {l : List (Nat × α)} (hc : Chain h p l) :
    p = firstAddr l := by
  cases l with
  | nil => exact hc
  | cons x l => exact hc.1

theorem chain_congr {h h' : Heap α} :
    ∀ {l : List (Nat × α)} {p : Option Nat}, (∀ x ∈ l, h' x.1 = h x.1) → Chain h p l →
      Chain h' p l := by
  intro l
  induction l with
  | nil => intro p _ hc; exact hc
  | cons x l ih =>
    intro p he hc
    obtain ⟨h1, nx, h2, h3⟩ := hc
    refine ⟨h1, nx, ?_, ih (fun y hy => he y (List.mem_cons_of_mem _ hy)) h3⟩
    rw [he x List.mem_cons_self, h2]

theorem chain_append {h : Heap α} :
    ∀ {l m : List (Nat × α)} {p : Option Nat}, Chain h p (l ++ m) → Chain h (firstAddr m) m := by
  intro l
  induction l with
  | nil =>
    intro m p hc
    rw [List.nil_append] at hc
    rwa [← chain_first hc]
  | cons x l ih =>
    intro m p hc
    obtain ⟨_, nx, _, h3⟩ := hc
    exact ih h3

/-- The cell of a node in the middle of a chain. -/
theorem chain_cell {h : Heap α} {l m : List (Nat × α)} {x : Nat × α} {p : Option Nat}
    (hc : Chain h p (l ++ x :: m)) : h x.1 = some ⟨firstAddr m, x.2⟩ := by
  obtain ⟨_, nx, h2, h3⟩ := chain_append hc
  rw [h2, chain_first h3]

theorem chain_mem {h : Heap α} {l : List (Nat × α)} {x : Nat × α} {p : Option Nat}
    (hc : Chain h p l) (hx : x ∈ l) : ∃ nx, h x.1 = some ⟨nx, x.2⟩ := by
  obtain ⟨l1, l2, rfl⟩ := List.append_of_mem hx
  exact ⟨_, chain_cell hc⟩

theorem chain_push {h : Heap α} {l : List (Nat × α)} {p : Option Nat} {a : Nat} {d : α}
    (hc : Chain h p l) (ha : ∀ x ∈ l, x.1 ≠ a) :
    Chain (Function.update h a (some ⟨p, d⟩)) (some a) ((a, d) :: l) := by
  refine ⟨rfl, p, by simp, chain_congr (fun x hx => ?_) hc⟩
  rw [Function.update_of_ne (ha x hx)]

/-- Unlinking and deleting the node `y` after `x`. -/
theorem chain_unlink {h : Heap α} {l m : List (Nat × α)} {x y : Nat × α} {p : Option Nat}
    (hc : Chain h p (l ++ x :: y :: m)) (hn : ((l ++ x :: y :: m).map Prod.fst).Nodup) :
    Chain (Function.update (Function.update h x.1 (some ⟨firstAddr m, x.2⟩)) y.1 none) p
      (l ++ x :: m) := by
  induction l generalizing p with
  | nil =>
    obtain ⟨h1, nx, _, h3⟩ := hc
    obtain ⟨_, ny, _, h6⟩ := h3
    simp only [List.nil_append, List.map_cons, List.nodup_cons, List.mem_cons, List.mem_map,
      not_or] at hn
    obtain ⟨⟨hxy, hxm⟩, hym, -⟩ := hn
    refine ⟨h1, firstAddr m, by rw [Function.update_of_ne hxy, Function.update_self], ?_⟩
    rw [← chain_first h6]
    refine chain_congr (fun z hz => ?_) h6
    rw [Function.update_of_ne (fun e => hym ⟨z, hz, e⟩),
      Function.update_of_ne (fun e => hxm ⟨z, hz, e⟩)]
  | cons z l ih =>
    obtain ⟨h1, nx, h2, h3⟩ := hc
    simp only [List.cons_append, List.map_cons, List.nodup_cons] at hn
    have hmem : ∀ w ∈ l ++ x :: y :: m, w.1 ≠ z.1 := by
      intro w hw e
      exact hn.1 (List.mem_map.mpr ⟨w, hw, e⟩)
    have hx : z.1 ≠ x.1 := (hmem x (by simp)).symm
    have hy : z.1 ≠ y.1 := (hmem y (by simp)).symm
    refine ⟨h1, nx, ?_, ih h3 hn.2⟩
    rw [Function.update_of_ne hy, Function.update_of_ne hx, h2]

end MulticorePrac
