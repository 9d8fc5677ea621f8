import MulticorePrac.Lib.Atomic
import MulticorePrac.Lib.Path
import Mathlib.Data.Finset.Basic
import Mathlib.Data.Finset.Dedup

/-!
# Lab11: what the lists are for

The lists of Lab11 hold a set of `int`s between two sentinels, with the keys `INT_MIN`
and `INT_MAX`.  Their operations are those of a mathematical set (`setObject`).  The nodes
of a list form a path from `HEAD` to `TAIL` that ascends in `rank`: a node's key, and for
the head something below every key, since `INT_MIN` may itself be added.
-/

namespace MulticorePrac.ListSet

def INT_MIN : Int := -2147483648

def INT_MAX : Int := 2147483647

inductive Op
  | add (key : Int)
  | remove (key : Int)
  | contains (key : Int)
  deriving DecidableEq, Repr

def Op.key : Op → Int
  | .add k => k
  | .remove k => k
  | .contains k => k

/-- An `int` below `INT_MAX`. -/
def Op.InRange (op : Op) : Prop := INT_MIN ≤ op.key ∧ op.key < INT_MAX

instance (op : Op) : Decidable op.InRange := inferInstanceAs (Decidable (_ ∧ _))

/-- The operations of a set of integers. -/
def setObject : Object (Finset Int) Op Bool where
  init := ∅
  apply s
    | .add k => (insert k s, decide (k ∉ s))
    | .remove k => (s.erase k, decide (k ∈ s))
    | .contains k => (s, decide (k ∈ s))

section
variable {S : Finset Int} {k : Int}

theorem apply_add_of_mem (h : k ∈ S) : setObject.apply S (.add k) = (S, false) := by
  simp [setObject, h]

theorem apply_add_of_notMem (h : k ∉ S) : setObject.apply S (.add k) = (insert k S, true) := by
  simp [setObject, h]

theorem apply_remove_of_mem (h : k ∈ S) : setObject.apply S (.remove k) = (S.erase k, true) := by
  simp [setObject, h]

theorem apply_remove_of_notMem (h : k ∉ S) : setObject.apply S (.remove k) = (S, false) := by
  simp [setObject, h]

end

/-! ## The nodes -/

/-- Addresses of nodes; `NULL` is the address of none. -/
def NULL : Nat := 0

def HEAD : Nat := 1

def TAIL : Nat := 2

def rank (key : Nat → Int) (a : Nat) : Int := if a = HEAD then INT_MIN - 1 else key a

theorem rank_of_ne {key : Nat → Int} {a : Nat} (h : a ≠ HEAD) : rank key a = key a := if_neg h

theorem rank_head (key : Nat → Int) : rank key HEAD = INT_MIN - 1 := if_pos rfl

/-- `p` is the path of the list, from the head to the tail, and `S` the set of its keys. -/
structure IsPath (key : Nat → Int) (p : List Nat) (S : Finset Int) : Prop where
  head : p.head? = some HEAD
  last : p.getLast? = some TAIL
  tail : key TAIL = INT_MAX
  asc : Ascending (rank key) p
  mem : ∀ k, k ∈ S ↔ ∃ a ∈ p, a ≠ HEAD ∧ a ≠ TAIL ∧ key a = k

namespace IsPath

variable {key : Nat → Int} {p : List Nat} {S : Finset Int} {a b n : Nat} {k : Int}

theorem head_mem (h : IsPath key p S) : HEAD ∈ p := List.mem_of_head? h.head

theorem ne_head (h : IsPath key p S) (hf : Follows p a b) : b ≠ HEAD :=
  hf.ne_head h.asc.nodup h.head

theorem rank_right (h : IsPath key p S) (hf : Follows p a b) : rank key b = key b :=
  rank_of_ne (h.ne_head hf)

theorem ne (h : IsPath key p S) (hf : Follows p a b) : a ≠ b := h.asc.ne_of_follows hf

/-- A node with a rank below `INT_MAX` has one after it. -/
theorem follows (h : IsPath key p S) (ha : a ∈ p) (hlt : rank key a < INT_MAX) :
    ∃ b, Follows p a b := by
  refine exists_follows ha ?_
  rw [h.last]
  intro he
  rw [← Option.some.inj he, rank_of_ne (by decide), h.tail] at hlt
  omega

/-- No node comes after the tail. -/
theorem rank_le (h : IsPath key p S) (ha : a ∈ p) : rank key a ≤ INT_MAX := by
  have htail : rank key TAIL = INT_MAX := by
    rw [rank_of_ne (by decide), h.tail]
  obtain ⟨q, rfl⟩ := List.getLast?_eq_some_iff.mp h.last
  rcases List.mem_append.mp ha with ha | ha
  · have hlt := (List.pairwise_append.mp h.asc).2.2 a ha TAIL (List.mem_singleton_self _)
    omega
  · rw [List.mem_singleton.mp ha, htail]

/-- No node comes before the head. -/
theorem le_rank (h : IsPath key p S) (ha : a ∈ p) : INT_MIN - 1 ≤ rank key a := by
  obtain ⟨q, rfl⟩ := List.head?_eq_some_iff.mp h.head
  rcases List.mem_cons.mp ha with rfl | ha
  · rw [rank_head]
  · have hlt := (List.pairwise_cons.mp h.asc).1 a ha
    rw [rank_head] at hlt
    omega

/-- Whether a key is in the set is seen at the first node that is not below it. -/
theorem mem_iff (h : IsPath key p S) (hf : Follows p a b) (ha : rank key a < k)
    (hb : k ≤ key b) (hk : INT_MIN ≤ k) (hk' : k < INT_MAX) : k ∈ S ↔ key b = k := by
  rw [h.mem]
  have hiff := h.asc.mem_iff hf ha (by rw [h.rank_right hf]; exact hb)
  rw [h.rank_right hf] at hiff
  rw [← hiff]
  constructor
  · rintro ⟨c, hc, h1, -, h3⟩
    exact ⟨c, hc, by rw [rank_of_ne h1]; exact h3⟩
  · rintro ⟨c, hc, h1⟩
    have hch : c ≠ HEAD := by
      rintro rfl
      rw [rank_head] at h1
      omega
    rw [rank_of_ne hch] at h1
    refine ⟨c, hc, hch, ?_, h1⟩
    rintro rfl
    rw [h.tail] at h1
    omega

/-- A node with key `k` is put between two neighbours. -/
theorem insert (h : IsPath key p S) (hf : Follows p a b) (hn : n ≠ HEAD) (hn' : n ≠ TAIL)
    (ha : rank key a < key n) (hb : key n < key b) : ∃ p', IsPath key p' (insert (key n) S) ∧
      (∀ c, c ∈ p' ↔ c = n ∨ c ∈ p) ∧
      ∀ c d, Follows p' c d ↔ (c = a ∧ d = n) ∨ (c = n ∧ d = b) ∨ (Follows p c d ∧ c ≠ a) := by
  obtain ⟨p', h1, h2, h3, h4, h5⟩ := h.asc.insert (n := n) hf (by rw [rank_of_ne hn]; exact ha)
    (by rw [rank_of_ne hn, h.rank_right hf]; exact hb)
  refine ⟨p', ⟨h2.trans h.head, h3.trans h.last, h.tail, h1, fun k => ?_⟩, h4, h5⟩
  rw [Finset.mem_insert, h.mem]
  constructor
  · rintro (rfl | ⟨c, hc, hk⟩)
    · exact ⟨n, (h4 n).mpr (Or.inl rfl), hn, hn', rfl⟩
    · exact ⟨c, (h4 c).mpr (Or.inr hc), hk⟩
  · rintro ⟨c, hc, hk1, hk2, rfl⟩
    rcases (h4 c).mp hc with rfl | hc
    · exact Or.inl rfl
    · exact Or.inr ⟨c, hc, hk1, hk2, rfl⟩

/-- A node is taken out. -/
theorem erase {c : Nat} (h : IsPath key p S) (hf : Follows p a b) (hf' : Follows p b c) :
    ∃ p', IsPath key p' (S.erase (key b)) ∧ (∀ x, x ∈ p' ↔ x ∈ p ∧ x ≠ b) ∧
      ∀ x y, Follows p' x y ↔ (x = a ∧ y = c) ∨ (Follows p x y ∧ x ≠ a ∧ x ≠ b) := by
  obtain ⟨p', h1, h2, h3, h4, h5⟩ := h.asc.erase hf hf'
  refine ⟨p', ⟨h2.trans h.head, h3.trans h.last, h.tail, h1, fun k => ?_⟩, h4, h5⟩
  rw [Finset.mem_erase, h.mem]
  constructor
  · rintro ⟨hk, x, hx, hx1, hx2, rfl⟩
    exact ⟨x, (h4 x).mpr ⟨hx, fun he => hk (by rw [he])⟩, hx1, hx2, rfl⟩
  · rintro ⟨x, hx, hx1, hx2, rfl⟩
    obtain ⟨hx, hxb⟩ := (h4 x).mp hx
    refine ⟨fun he => hxb ?_, x, hx, hx1, hx2, rfl⟩
    -- two nodes with the same key are the same
    refine h.asc.inj hx hf.right_mem ?_
    rw [rank_of_ne hx1, h.rank_right hf]
    exact he

/-- Keys outside the path may change. -/
theorem congr {key' : Nat → Int} (h : IsPath key p S) (he : ∀ a ∈ p, key' a = key a) :
    IsPath key' p S := by
  have htail : TAIL ∈ p := List.mem_of_getLast? h.last
  refine ⟨h.head, h.last, by rw [he _ htail]; exact h.tail, h.asc.congr fun a ha => ?_, fun k => ?_⟩
  · unfold rank
    rw [he a ha]
  · rw [h.mem]
    refine exists_congr fun a => and_congr_right fun ha => ?_
    rw [he a ha]

/-- The nodes between the sentinels. -/
theorem between (h : IsPath key p S) : ∃ ns, p = HEAD :: (ns ++ [TAIL]) ∧
    (ns.map key).Pairwise (· < ·) ∧ S = (ns.map key).toFinset := by
  obtain ⟨q, rfl⟩ := List.head?_eq_some_iff.mp h.head
  have hq : q ≠ [] := by
    rintro rfl
    have := h.last
    simp [HEAD, TAIL] at this
  obtain ⟨ns, hns⟩ : ∃ ns, q = ns ++ [TAIL] := by
    refine ⟨q.dropLast, ?_⟩
    have hl := h.last
    rw [List.getLast?_cons, Option.some.injEq] at hl
    rw [← hl, List.getLast?_eq_some_getLast hq, Option.getD_some]
    exact (List.dropLast_append_getLast hq).symm
  subst hns
  have hnd := h.asc.nodup
  have hhead : ∀ x ∈ ns, x ≠ HEAD := fun x hx he =>
    (List.nodup_cons.mp hnd).1 (by rw [← he]; exact List.mem_append_left _ hx)
  have htail : ∀ x ∈ ns, x ≠ TAIL := fun x hx he =>
    (List.disjoint_of_nodup_append (List.nodup_cons.mp hnd).2) hx (by rw [he]; exact List.mem_singleton_self _)
  refine ⟨ns, rfl, List.pairwise_map.mpr ?_, Finset.ext fun k => ?_⟩
  · have hasc := (List.pairwise_append.mp (List.pairwise_cons.mp h.asc).2).1
    refine hasc.imp_of_mem fun ha hb hab => ?_
    rw [rank_of_ne (hhead _ ha), rank_of_ne (hhead _ hb)] at hab
    exact hab
  · rw [h.mem, List.mem_toFinset, List.mem_map]
    constructor
    · rintro ⟨a, ha, h1, h2, h3⟩
      rcases List.mem_cons.mp ha with rfl | ha
      · exact absurd rfl h1
      · rcases List.mem_append.mp ha with ha | ha
        · exact ⟨a, ha, h3⟩
        · exact absurd (List.mem_singleton.mp ha) h2
    · rintro ⟨a, ha, h3⟩
      exact ⟨a, List.mem_cons_of_mem _ (List.mem_append_left _ ha), hhead a ha, htail a ha, h3⟩

end IsPath

end MulticorePrac.ListSet
