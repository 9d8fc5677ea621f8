import Mathlib.Data.List.Basic
import Mathlib.Order.Basic
import Mathlib.Data.List.Pairwise
import Mathlib.Data.Finset.Basic

/-!
# Paths of nodes in ascending order

A linked list is seen as the list `p` of its nodes, from the first to the last.
`Follows p a b`: node `b` stands right after `a`.  `Ascending rank p`: the nodes have
strictly ascending ranks.  In such a path the place for a rank is found by its two
neighbours (`Ascending.mem_iff`), and a node is put in (`Ascending.insert`) or taken out
(`Ascending.erase`) between neighbours without changing what follows any other node.
-/

namespace MulticorePrac

variable {α : Type}

/-- `b` stands right after `a` in the path. -/
def Follows : List α → α → α → Prop
  | x :: y :: l, a, b => (x = a ∧ y = b) ∨ Follows (y :: l) a b
  | _, _, _ => False

theorem follows_cons {x a b : α} {l : List α} :
    Follows (x :: l) a b ↔ (x = a ∧ l.head? = some b) ∨ Follows l a b := by
  cases l with
  | nil => simp [Follows]
  | cons y l => simp [Follows]

theorem follows_iff {a b : α} : ∀ {p : List α}, Follows p a b ↔ ∃ l r, p = l ++ a :: b :: r := by
  intro p
  induction p with
  | nil => simp [Follows]
  | cons x p ih =>
    rw [follows_cons, ih]
    constructor
    · rintro (⟨rfl, h⟩ | ⟨l, r, rfl⟩)
      · obtain ⟨r, rfl⟩ := List.head?_eq_some_iff.mp h
        exact ⟨[], r, rfl⟩
      · exact ⟨x :: l, r, rfl⟩
    · rintro ⟨l, r, h⟩
      cases l with
      | nil =>
        simp only [List.nil_append, List.cons.injEq] at h
        obtain ⟨rfl, rfl⟩ := h
        exact Or.inl ⟨rfl, rfl⟩
      | cons y l =>
        simp only [List.cons_append, List.cons.injEq] at h
        exact Or.inr ⟨l, r, h.2⟩

theorem Follows.left_mem {p : List α} {a b : α} (h : Follows p a b) : a ∈ p := by
  obtain ⟨l, r, rfl⟩ := follows_iff.1 h
  simp

theorem Follows.right_mem {p : List α} {a b : α} (h : Follows p a b) : b ∈ p := by
  obtain ⟨l, r, rfl⟩ := follows_iff.1 h
  simp

/-- Every node but the last has one after it. -/
theorem exists_follows {p : List α} {a : α} (ha : a ∈ p) (hl : p.getLast? ≠ some a) :
    ∃ b, Follows p a b := by
  obtain ⟨l, r, rfl⟩ := List.append_of_mem ha
  cases r with
  | nil => simp at hl
  | cons b r => exact ⟨b, follows_iff.2 ⟨l, r, rfl⟩⟩

/-- What holds of the first node and goes from each node to the next holds of all. -/
theorem forall_of_follows {P : α → Prop} : ∀ {p : List α} {h : α}, p.head? = some h → P h →
    (∀ x y, Follows p x y → P x → P y) → ∀ x ∈ p, P x := by
  intro p
  induction p with
  | nil => intro h hh; cases hh
  | cons z p ih =>
    intro h hh hP hstep x hx
    have hz : P z := Option.some.inj hh ▸ hP
    rcases List.mem_cons.mp hx with rfl | hx
    · exact hz
    · cases p with
      | nil => cases hx
      | cons y p =>
        have hy : P y := hstep z y (Or.inl ⟨rfl, rfl⟩) hz
        exact ih rfl hy (fun u v huv => hstep u v (Or.inr huv)) x hx

theorem Follows.right_unique : ∀ {p : List α} {a b c : α}, p.Nodup → Follows p a b →
    Follows p a c → b = c := by
  intro p
  induction p with
  | nil => intro a b c _ h; cases h
  | cons x p ih =>
    intro a b c hnd h h'
    rw [List.nodup_cons] at hnd
    rcases follows_cons.1 h with ⟨rfl, h1⟩ | h1
    · rcases follows_cons.1 h' with ⟨-, h2⟩ | h2
      · rw [h1] at h2
        exact Option.some.inj h2
      · exact absurd h2.left_mem hnd.1
    · rcases follows_cons.1 h' with ⟨rfl, -⟩ | h2
      · exact absurd h1.left_mem hnd.1
      · exact ih hnd.2 h1 h2

/-- Nothing stands before the first node. -/
theorem Follows.ne_head {p : List α} {a b h : α} (hf : Follows p a b) (hnd : p.Nodup)
    (hh : p.head? = some h) : b ≠ h := by
  rintro rfl
  obtain ⟨q, rfl⟩ := List.head?_eq_some_iff.mp hh
  rcases follows_cons.1 hf with ⟨-, h1⟩ | h1
  · exact (List.nodup_cons.mp hnd).1 (List.mem_of_head? h1)
  · exact (List.nodup_cons.mp hnd).1 h1.right_mem

/-! ## Putting a node in and taking one out -/

/-- What follows what after `n` is put between `a` and `b`. -/
theorem follows_insert {a b n c d : α} {r : List α} : ∀ {l : List α}, (l ++ a :: b :: r).Nodup →
    (Follows (l ++ a :: n :: b :: r) c d ↔
      (c = a ∧ d = n) ∨ (c = n ∧ d = b) ∨ (Follows (l ++ a :: b :: r) c d ∧ c ≠ a)) := by
  intro l
  induction l with
  | nil =>
    intro hnd
    simp only [List.nil_append, List.nodup_cons] at hnd
    simp only [List.nil_append, follows_cons, List.head?_cons, Option.some.injEq]
    have hne : ∀ {c}, (b = c ∧ r.head? = some d) ∨ Follows r c d → c ≠ a := by
      rintro c (⟨rfl, -⟩ | h) rfl
      · exact hnd.1 List.mem_cons_self
      · exact hnd.1 (List.mem_cons_of_mem b h.left_mem)
    constructor
    · rintro (⟨rfl, rfl⟩ | ⟨rfl, rfl⟩ | h)
      · exact Or.inl ⟨rfl, rfl⟩
      · exact Or.inr (Or.inl ⟨rfl, rfl⟩)
      · exact Or.inr (Or.inr ⟨Or.inr h, hne h⟩)
    · rintro (⟨rfl, rfl⟩ | ⟨rfl, rfl⟩ | ⟨h | h, hc⟩)
      · exact Or.inl ⟨rfl, rfl⟩
      · exact Or.inr (Or.inl ⟨rfl, rfl⟩)
      · exact absurd h.1.symm hc
      · exact Or.inr (Or.inr h)
  | cons x l ih =>
    intro hnd
    simp only [List.cons_append, List.nodup_cons] at hnd
    have hxa : x ≠ a := fun h => hnd.1 (by simp [h])
    have hhead : (l ++ a :: n :: b :: r).head? = (l ++ a :: b :: r).head? := by
      cases l <;> rfl
    simp only [List.cons_append, follows_cons, hhead, ih hnd.2]
    constructor
    · rintro (⟨rfl, h⟩ | h | h | ⟨h, hc⟩)
      · exact Or.inr (Or.inr ⟨Or.inl ⟨rfl, h⟩, hxa⟩)
      · exact Or.inl h
      · exact Or.inr (Or.inl h)
      · exact Or.inr (Or.inr ⟨Or.inr h, hc⟩)
    · rintro (h | h | ⟨h | h, hc⟩)
      · exact Or.inr (Or.inl h)
      · exact Or.inr (Or.inr (Or.inl h))
      · exact Or.inl h
      · exact Or.inr (Or.inr (Or.inr ⟨h, hc⟩))

theorem perm_second (l : List α) (a b : α) (r : List α) :
    (l ++ a :: b :: r).Perm (b :: (l ++ a :: r)) :=
  ((List.Perm.swap b a r).append_left l).trans List.perm_middle

/-- What follows what after the node `b` between `a` and `c` is taken out. -/
theorem follows_erase {a b c x y : α} {r l : List α} (hnd : (l ++ a :: b :: c :: r).Nodup) :
    Follows (l ++ a :: c :: r) x y ↔
      (x = a ∧ y = c) ∨ (Follows (l ++ a :: b :: c :: r) x y ∧ x ≠ a ∧ x ≠ b) := by
  obtain ⟨hb, hnd'⟩ := List.nodup_cons.mp ((perm_second l a b (c :: r)).nodup hnd)
  rw [follows_insert (n := b) hnd']
  constructor
  · intro h
    by_cases hx : x = a
    · subst hx
      exact Or.inl ⟨rfl, h.right_unique hnd' (follows_iff.2 ⟨l, r, rfl⟩)⟩
    · exact Or.inr ⟨Or.inr (Or.inr ⟨h, hx⟩), hx, fun he => hb (he ▸ h.left_mem)⟩
  · rintro (⟨rfl, rfl⟩ | ⟨h | h | ⟨h, -⟩, hxa, hxb⟩)
    · exact follows_iff.2 ⟨l, r, rfl⟩
    · exact absurd h.1 hxa
    · exact absurd h.1 hxb
    · exact h

/-! ## Ascending paths -/

variable {κ : Type} [LinearOrder κ] {rank : α → κ} {p : List α} {a b : α}

def Ascending (rank : α → κ) (p : List α) : Prop := p.Pairwise fun a b => rank a < rank b

namespace Ascending

theorem nodup (h : Ascending rank p) : p.Nodup :=
  List.Pairwise.imp (fun hlt he => by rw [he] at hlt; exact lt_irrefl _ hlt) h

theorem congr {rank' : α → κ} (h : Ascending rank p) (he : ∀ a ∈ p, rank' a = rank a) :
    Ascending rank' p :=
  List.Pairwise.imp_of_mem (fun ha hb hlt => by rw [he _ ha, he _ hb]; exact hlt) h

theorem inj (h : Ascending rank p) (ha : a ∈ p) (hb : b ∈ p) (he : rank a = rank b) : a = b := by
  have hnd : (p.map rank).Nodup :=
    List.pairwise_map.mpr (List.Pairwise.imp (fun hlt he => ne_of_lt hlt he) h)
  exact List.inj_on_of_nodup_map hnd ha hb he

theorem lt_of_follows (h : Ascending rank p) (hf : Follows p a b) : rank a < rank b := by
  obtain ⟨l, r, rfl⟩ := follows_iff.1 hf
  exact (List.pairwise_cons.mp (List.pairwise_append.mp h).2.1).1 b List.mem_cons_self

theorem ne_of_follows (h : Ascending rank p) (hf : Follows p a b) : a ≠ b := by
  rintro rfl
  exact lt_irrefl _ (h.lt_of_follows hf)

/-- A rank between two neighbours is in the path only as that of the second. -/
theorem mem_iff (h : Ascending rank p) (hf : Follows p a b) {k : κ} (ha : rank a < k)
    (hb : k ≤ rank b) : (∃ c ∈ p, rank c = k) ↔ rank b = k := by
  refine ⟨?_, fun he => ⟨b, hf.right_mem, he⟩⟩
  rintro ⟨c, hc, rfl⟩
  obtain ⟨l, r, rfl⟩ := follows_iff.1 hf
  obtain ⟨-, h2, h3⟩ := List.pairwise_append.mp h
  obtain ⟨-, h4⟩ := List.pairwise_cons.mp h2
  obtain ⟨h5, -⟩ := List.pairwise_cons.mp h4
  simp only [List.mem_append, List.mem_cons] at hc
  rcases hc with hc | rfl | rfl | hc
  · exact absurd (h3 c hc a List.mem_cons_self) (lt_asymm ha)
  · exact absurd ha (lt_irrefl _)
  · rfl
  · exact absurd (h5 c hc) (not_lt_of_ge hb)

/-- A node is put between two neighbours. -/
theorem insert {n : α} (h : Ascending rank p) (hf : Follows p a b) (ha : rank a < rank n)
    (hb : rank n < rank b) : ∃ p', Ascending rank p' ∧ p'.head? = p.head? ∧
      p'.getLast? = p.getLast? ∧ (∀ c, c ∈ p' ↔ c = n ∨ c ∈ p) ∧
      ∀ c d, Follows p' c d ↔ (c = a ∧ d = n) ∨ (c = n ∧ d = b) ∨ (Follows p c d ∧ c ≠ a) := by
  have hnd := h.nodup
  obtain ⟨l, r, rfl⟩ := follows_iff.1 hf
  obtain ⟨h1, h2, h3⟩ := List.pairwise_append.mp h
  obtain ⟨h4, h5⟩ := List.pairwise_cons.mp h2
  obtain ⟨h6, -⟩ := List.pairwise_cons.mp h5
  refine ⟨l ++ a :: n :: b :: r, ?_, ?_, ?_, fun c => ?_, fun c d => follows_insert hnd⟩
  · -- everything before `n` is below `a`, everything after it above `b`
    have hn : ∀ x ∈ b :: r, rank n < rank x := by
      intro x hx
      rcases List.mem_cons.mp hx with rfl | hx
      · exact hb
      · exact lt_trans hb (h6 x hx)
    refine List.pairwise_append.mpr ⟨h1, List.pairwise_cons.mpr
      ⟨fun x hx => ?_, List.pairwise_cons.mpr ⟨hn, h5⟩⟩, fun x hx y hy => ?_⟩
    · rcases List.mem_cons.mp hx with rfl | hx
      · exact ha
      · exact h4 x hx
    · rcases List.mem_cons.mp hy with rfl | hy
      · exact h3 x hx y List.mem_cons_self
      · rcases List.mem_cons.mp hy with rfl | hy
        · exact lt_trans (h3 x hx a List.mem_cons_self) ha
        · exact h3 x hx y (List.mem_cons_of_mem a hy)
  · cases l <;> rfl
  · simp [List.getLast?_append, List.getLast?_cons]
  · simp only [List.mem_append, List.mem_cons]
    tauto

/-- The node between two others is taken out. -/
theorem erase {c : α} (h : Ascending rank p) (hf : Follows p a b) (hf' : Follows p b c) :
    ∃ p', Ascending rank p' ∧ p'.head? = p.head? ∧ p'.getLast? = p.getLast? ∧
      (∀ x, x ∈ p' ↔ x ∈ p ∧ x ≠ b) ∧
      ∀ x y, Follows p' x y ↔ (x = a ∧ y = c) ∨ (Follows p x y ∧ x ≠ a ∧ x ≠ b) := by
  have hnd := h.nodup
  obtain ⟨l, r, rfl⟩ := follows_iff.1 hf
  obtain ⟨r, rfl⟩ : ∃ r', r = c :: r' := by
    obtain ⟨l1, r1, he⟩ := follows_iff.1 hf'
    have he' : (l ++ [a]) ++ b :: r = l1 ++ b :: (c :: r1) := by rw [← he]; simp
    have hnd' : ((l ++ [a]) ++ b :: r).Nodup := by simpa using hnd
    obtain ⟨-, h2, h3⟩ := List.nodup_append.mp hnd'
    have hl : b ∉ l ++ [a] := fun hm => h3 b hm b List.mem_cons_self rfl
    exact ⟨r1, ((List.append_cons_inj_of_notMem hl (List.nodup_cons.mp h2).1).mp he').2.2⟩
  have hsub : (l ++ a :: c :: r).Sublist (l ++ a :: b :: c :: r) :=
    (List.Sublist.refl l).append ((List.sublist_cons_self b (c :: r)).cons_cons a)
  refine ⟨l ++ a :: c :: r, List.Pairwise.sublist hsub h, ?_, ?_, fun x => ?_,
    fun x y => follows_erase hnd⟩
  · cases l <;> rfl
  · simp [List.getLast?_append, List.getLast?_cons]
  · have hperm := perm_second l a b (c :: r)
    have hb := (List.nodup_cons.mp (hperm.nodup hnd)).1
    rw [hperm.mem_iff, List.mem_cons]
    constructor
    · intro hx
      exact ⟨Or.inr hx, fun he => hb (he ▸ hx)⟩
    · rintro ⟨hx | hx, hne⟩
      · exact absurd hx hne
      · exact hx

end Ascending

end MulticorePrac
