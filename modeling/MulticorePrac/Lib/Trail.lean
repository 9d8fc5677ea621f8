import MulticorePrac.Lib.Path

/-!
# Paths with nodes that were taken out

Where nodes are taken out of a linked list and not freed, someone may still stand on one
and go on from there.  `age` tells when a node was taken out: the nodes of the path have the
age `now`, a node that was taken out has a smaller one, and 0 is the age of a node that was
never in the path.  A node that was taken out keeps its link, which leads to a node of the
path or to one that was taken out later (`Trail`).  So who goes on from such a node comes to
younger and younger ones, and never back.
-/

namespace MulticorePrac

variable {α κ : Type} [LinearOrder κ]

structure Trail (rank : α → κ) (next : α → α) (p : List α) (age : α → Nat) (now : Nat) : Prop where
  pos : 0 < now
  le : ∀ x, age x ≤ now
  mem : ∀ x, x ∈ p ↔ age x = now
  links : ∀ x y, Follows p x y → next x = y
  forward : ∀ x, 0 < age x → age x < now → rank x < rank (next x) ∧ age x < age (next x)

namespace Trail

variable {rank : α → κ} {next : α → α} {p p' : List α} {age : α → Nat} {now : Nat} {a b c n x y : α}

theorem pos_of_mem (h : Trail rank next p age now) (hx : x ∈ p) : 0 < age x := by
  rw [(h.mem x).mp hx]
  exact h.pos

/-- Who goes on from a node comes to one with a higher rank that is in the path or younger. -/
theorem next_of_pos (h : Trail rank next p age now) (hasc : Ascending rank p) (hx : 0 < age x)
    (hlast : p.getLast? ≠ some x) : rank x < rank (next x) ∧ 0 < age (next x) ∧
      (age (next x) = now ∨ age x < age (next x)) := by
  by_cases hm : x ∈ p
  · obtain ⟨y, hf⟩ := exists_follows hm hlast
    rw [h.links x y hf]
    exact ⟨hasc.lt_of_follows hf, h.pos_of_mem hf.right_mem, Or.inl ((h.mem y).mp hf.right_mem)⟩
  · have hlt : age x < now := lt_of_le_of_ne (h.le x) fun he => hm ((h.mem x).mpr he)
    obtain ⟨h1, h2⟩ := h.forward x hx hlt
    exact ⟨h1, by omega, Or.inr h2⟩

/-- A bound for the ranks of the path holds for the nodes that were taken out too. -/
theorem rank_le (h : Trail rank next p age now) {bound : κ} (hp : ∀ x ∈ p, rank x ≤ bound)
    (hx : 0 < age x) : rank x ≤ bound := by
  -- by induction on how long ago the node was taken out
  have key : ∀ (m : Nat) (x : α), 0 < age x → now - age x ≤ m → rank x ≤ bound := by
    intro m
    induction m with
    | zero =>
      intro x _ hm
      have hle := h.le x
      exact hp x ((h.mem x).mpr (by omega))
    | succ m ih =>
      intro x h0 hm
      have hle := h.le x
      by_cases hlt : age x < now
      · obtain ⟨h1, h2⟩ := h.forward x h0 hlt
        exact h1.le.trans (ih (next x) (by omega) (by omega))
      · exact hp x ((h.mem x).mpr (by omega))
  exact key _ x hx (Nat.le_refl _)

/-- Ranks and links of nodes that were never in the path may change. -/
theorem congr {rank' : α → κ} {next' : α → α} (h : Trail rank next p age now)
    (hr : ∀ x, 0 < age x → rank' x = rank x) (hn : ∀ x, 0 < age x → next' x = next x) :
    Trail rank' next' p age now := by
  refine ⟨h.pos, h.le, h.mem, fun x y hf => ?_, fun x h0 hlt => ?_⟩
  · rw [hn x (h.pos_of_mem hf.left_mem)]
    exact h.links x y hf
  · obtain ⟨h1, h2⟩ := h.forward x h0 hlt
    rw [hn x h0, hr x h0, hr (next x) (by omega)]
    exact ⟨h1, h2⟩

variable [DecidableEq α]

/-- A node is put in after `a`, with its own link set before. -/
theorem insert (h : Trail rank next p age now) (hf : Follows p a b) (hn : age n = 0)
    (hnext : next n = b) (hmem : ∀ x, x ∈ p' ↔ x = n ∨ x ∈ p)
    (hfol : ∀ x y, Follows p' x y ↔
      (x = a ∧ y = n) ∨ (x = n ∧ y = b) ∨ (Follows p x y ∧ x ≠ a)) :
    Trail rank (Function.update next a n) p' (Function.update age n now) now := by
  have hpos := h.pos
  have hna : n ≠ a := by
    rintro rfl
    have := h.pos_of_mem hf.left_mem
    omega
  have hge : ∀ x, age x ≤ Function.update age n now x := by
    intro x
    by_cases hx : x = n
    · rw [hx, hn]
      exact Nat.zero_le _
    · rw [Function.update_of_ne hx]
  refine ⟨hpos, fun x => ?_, fun x => ?_, fun x y hxy => ?_, fun x h0 hlt => ?_⟩
  · by_cases hx : x = n
    · rw [hx, Function.update_self]
    · rw [Function.update_of_ne hx]
      exact h.le x
  · rw [hmem]
    by_cases hx : x = n
    · simp [hx]
    · rw [Function.update_of_ne hx, ← h.mem]
      simp [hx]
  · rcases (hfol x y).mp hxy with ⟨rfl, rfl⟩ | ⟨rfl, rfl⟩ | ⟨hxy, hx⟩
    · exact Function.update_self ..
    · rw [Function.update_of_ne hna]
      exact hnext
    · rw [Function.update_of_ne hx]
      exact h.links x y hxy
  · have hx : x ≠ n := by
      rintro rfl
      rw [Function.update_self] at hlt
      omega
    rw [Function.update_of_ne hx] at h0 hlt ⊢
    have hxa : x ≠ a := by
      rintro rfl
      rw [(h.mem x).mp hf.left_mem] at hlt
      omega
    rw [Function.update_of_ne hxa]
    obtain ⟨h1, h2⟩ := h.forward x h0 hlt
    exact ⟨h1, Nat.lt_of_lt_of_le h2 (hge _)⟩

/-- The ages after `b` is taken out: those who stay are younger now. -/
def aged (age : α → Nat) (now : Nat) (b x : α) : Nat :=
  if age x = now ∧ x ≠ b then now + 1 else age x

theorem le_aged (age : α → Nat) (now : Nat) (b x : α) : age x ≤ aged age now b x := by
  unfold aged
  split <;> omega

/-- A node is taken out: the node before it leads to the one after it. -/
theorem erase (h : Trail rank next p age now) (hasc : Ascending rank p) (hf : Follows p a b)
    (hf' : Follows p b c) (hmem : ∀ x, x ∈ p' ↔ x ∈ p ∧ x ≠ b)
    (hfol : ∀ x y, Follows p' x y ↔ (x = a ∧ y = c) ∨ (Follows p x y ∧ x ≠ a ∧ x ≠ b)) :
    Trail rank (Function.update next a c) p' (aged age now b) (now + 1) := by
  have hpos := h.pos
  refine ⟨Nat.succ_pos _, fun x => ?_, fun x => ?_, fun x y hxy => ?_, fun x h0 hlt => ?_⟩
  · have := h.le x
    unfold aged
    split <;> omega
  · have := h.le x
    rw [hmem, h.mem]
    unfold aged
    split
    · rename_i hx
      exact ⟨fun _ => rfl, fun _ => hx⟩
    · rename_i hx
      exact ⟨fun hc => absurd hc hx, fun hc => by omega⟩
  · rcases (hfol x y).mp hxy with ⟨rfl, rfl⟩ | ⟨hxy, hx, -⟩
    · exact Function.update_self ..
    · rw [Function.update_of_ne hx]
      exact h.links x y hxy
  · by_cases hx : x = b
    · -- the node itself leads to the one after it, which stays
      have hba : b ≠ a := (hasc.ne_of_follows hf).symm
      have hcb : c ≠ b := (hasc.ne_of_follows hf').symm
      rw [hx, Function.update_of_ne hba, h.links b c hf']
      refine ⟨hasc.lt_of_follows hf', ?_⟩
      have hb := (h.mem b).mp hf.right_mem
      have hc := (h.mem c).mp hf'.right_mem
      unfold aged
      rw [if_neg (fun hc => hc.2 rfl), if_pos ⟨hc, hcb⟩]
      omega
    · have hage : age x < now := by
        by_contra hc
        have heq : age x = now := Nat.le_antisymm (h.le x) (Nat.not_lt.mp hc)
        unfold aged at hlt
        rw [if_pos ⟨heq, hx⟩] at hlt
        omega
      have hsame : aged age now b x = age x := if_neg fun hc => by omega
      have hxa : x ≠ a := by
        rintro rfl
        rw [(h.mem x).mp hf.left_mem] at hage
        omega
      rw [hsame] at h0 ⊢
      rw [Function.update_of_ne hxa]
      obtain ⟨h1, h2⟩ := h.forward x h0 hage
      exact ⟨h1, Nat.lt_of_lt_of_le h2 (le_aged ..)⟩

end Trail

end MulticorePrac
