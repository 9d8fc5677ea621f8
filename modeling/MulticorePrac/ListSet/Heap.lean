import MulticorePrac.ListSet.State
import MulticorePrac.Lib.Rounds

/-!
# Lab11: the lists in one thread

The heap of the lists, and what their operations do to it when they are called one after
the other.  The keys are any `int`s: the sentinels carry the keys `INT_MIN` and `INT_MAX`, and
a call may use them too.  To follow a `NULL` pointer is a fault, and so is to lock a mutex
that is held, which would block for ever.

`Intact h p S`: the nodes of the path `p` are linked from the head to the tail, with the keys
of `S` between them.
-/

namespace MulticorePrac.ListSet

structure Heap where
  key : Nat → Int
  next : Nat → Nat
  live : Nat → Bool
  locked : Nat → Bool

inductive Fault
  | nullNext
  | blocked
  | spins
  | noMemory
  deriving DecidableEq, Repr

namespace Heap

/-- `list_init`. -/
def init : Heap where
  key := Function.update (Function.update (fun _ => 0) HEAD INT_MIN) TAIL INT_MAX
  next := Function.update (Function.update (fun _ => NULL) HEAD TAIL) TAIL NULL
  live := Function.update (Function.update (fun _ => false) HEAD true) TAIL true
  locked := fun _ => false

/-- `a->next = b`. -/
def setNext (h : Heap) (a b : Nat) : Heap := { h with next := Function.update h.next a b }

/-- A new node at `a`, with its key and mutex initialised; `junk` is what its `next` happens to be. -/
def put (h : Heap) (a junk : Nat) (key : Int) : Heap where
  key := Function.update h.key a key
  next := Function.update h.next a junk
  live := Function.update h.live a true
  locked := Function.update h.locked a false

/-- `malloc` of a node; its address is the choice of the allocator. -/
def malloc (h : Heap) (a junk : Nat) (key : Int) : Except Fault Heap :=
  if h.live a = true ∨ a = NULL then .error .noMemory else .ok (h.put a junk key)

def free (h : Heap) (a : Nat) : Heap := { h with live := Function.update h.live a false }

def lock (h : Heap) (a : Nat) : Except Fault Heap :=
  if a = NULL then .error .nullNext
  else if h.locked a = true then .error .blocked
  else .ok { h with locked := Function.update h.locked a true }

def unlock (h : Heap) (a : Nat) : Heap := { h with locked := Function.update h.locked a false }

/-- `while (curr->key < key) { prev = curr; curr = curr->next; }` -/
def search (h : Heap) (key : Int) : Nat → Nat → Nat → Except Fault (Nat × Nat)
  | 0, _, _ => .error .spins
  | rounds + 1, prev, curr =>
    if curr = NULL then .error .nullNext
    else if h.key curr < key then search h key rounds curr (h.next curr)
    else .ok (prev, curr)

/-- Once the loop has ended, more rounds do not change the result. -/
theorem search_stable (h : Heap) (key : Int) : ∀ (n m prev curr : Nat), n ≤ m →
    h.search key n prev curr ≠ .error .spins →
    h.search key m prev curr = h.search key n prev curr := by
  intro n
  induction n with
  | zero =>
    intro m prev curr _ hne
    exact absurd rfl hne
  | succ n ih =>
    intro m prev curr hm hne
    obtain ⟨m, rfl⟩ : ∃ m', m = m' + 1 := ⟨m - 1, by omega⟩
    unfold search at hne ⊢
    by_cases hnull : curr = NULL
    · rw [if_pos hnull, if_pos hnull]
    · rw [if_neg hnull] at hne ⊢
      rw [if_neg hnull]
      by_cases hlt : h.key curr < key
      · rw [if_pos hlt] at hne ⊢
        rw [if_pos hlt]
        exact ih m curr (h.next curr) (by omega) hne
      · rw [if_neg hlt, if_neg hlt]

/-- The keys from a node to the tail, as `main` reads them in the end. -/
def listKeys (h : Heap) : Nat → Nat → Except Fault (List Int)
  | 0, _ => .error .spins
  | rounds + 1, it =>
    if it = TAIL then .ok []
    else if it = NULL then .error .nullNext
    else (listKeys h rounds (h.next it)).map (h.key it :: ·)

def keys (h : Heap) (rounds : Nat) : Except Fault (List Int) := h.listKeys rounds (h.next HEAD)

/-- Head and tail are the first and the last node. -/
def Linked (h : Heap) : Prop :=
  ∃ p, p.head? = some HEAD ∧ p.getLast? = some TAIL ∧ p.Nodup ∧
    (∀ x y, Follows p x y → h.next x = y) ∧ h.next TAIL = NULL ∧ ∀ x ∈ p, h.live x = true

end Heap

structure Intact (h : Heap) (p : List Nat) (S : Finset Int) : Prop where
  path : IsPath h.key p S
  head : h.key HEAD = INT_MIN
  links : ∀ x y, Follows p x y → h.next x = y
  last : h.next TAIL = NULL
  live : ∀ x ∈ p, h.live x = true
  null : h.live NULL = false
  unlocked : ∀ x ∈ p, h.locked x = false

theorem intact_init : Intact Heap.init [HEAD, TAIL] ∅ := by
  refine ⟨isPath_listInit (), rfl, fun x y hf => ?_, rfl, by decide, rfl, fun _ _ => rfl⟩
  rcases hf with ⟨rfl, rfl⟩ | hf
  · rfl
  · cases hf

namespace Intact

variable {h : Heap} {p : List Nat} {S : Finset Int} {a b c n : Nat} {k : Int}

theorem linked (hi : Intact h p S) : h.Linked :=
  ⟨p, hi.path.head, hi.path.last, hi.path.asc.nodup, hi.links, hi.last, hi.live⟩

theorem ne_null (hi : Intact h p S) (ha : a ∈ p) : a ≠ NULL := by
  rintro rfl
  have hlive := hi.live NULL ha
  rw [hi.null] at hlive
  cases hlive

/-- The node after the head. -/
theorem follows_head (hi : Intact h p S) : Follows p HEAD (h.next HEAD) := by
  obtain ⟨b, hf⟩ := hi.path.follows hi.path.head_mem (by rw [rank_head]; decide)
  rw [hi.links HEAD b hf]
  exact hf

theorem tail_mem (hi : Intact h p S) : TAIL ∈ p := List.mem_of_getLast? hi.path.last

/-- No node follows the tail. -/
theorem ne_tail (hi : Intact h p S) (hf : Follows p a b) : a ≠ TAIL := by
  rintro rfl
  have hlt := hi.path.asc.lt_of_follows hf
  have hle := hi.path.rank_le hf.right_mem
  rw [rank_of_ne (by decide : TAIL ≠ HEAD), hi.path.tail] at hlt
  omega

/-! ## Searching -/

/-- The loop ends at the first node that is not below the key. -/
theorem search_eq (hi : Intact h p S) (hk : k ≤ INT_MAX) : ∀ (r l : List Nat) (a b : Nat),
    p = l ++ a :: b :: r → rank h.key a < k → ∃ c d, Follows p c d ∧ rank h.key c < k ∧
      k ≤ h.key d ∧ ∀ rounds, r.length < rounds → h.search k rounds a b = .ok (c, d) := by
  intro r
  -- by induction on the nodes that are left
  induction r with
  | nil =>
    intro l a b hp ha
    have hlast := hi.path.last
    rw [hp] at hlast
    have hb : b = TAIL := by simpa using hlast
    have hf : Follows p a b := follows_iff.mpr ⟨l, [], hp⟩
    refine ⟨a, b, hf, ha, ?_, fun rounds hr => ?_⟩
    · rw [hb, hi.path.tail]
      exact hk
    · obtain ⟨m, rfl⟩ := Nat.exists_eq_add_of_lt hr
      unfold Heap.search
      rw [if_neg (hi.ne_null hf.right_mem), hb, hi.path.tail, if_neg (by omega)]
  | cons c r ih =>
    intro l a b hp ha
    have hf : Follows p a b := follows_iff.mpr ⟨l, c :: r, hp⟩
    by_cases hlt : h.key b < k
    · have hnext : h.next b = c := hi.links b c (follows_iff.mpr ⟨l ++ [a], r, by simp [hp]⟩)
      have hb : rank h.key b < k := by rwa [hi.path.rank_right hf]
      obtain ⟨d, e, h1, h2, h3, h4⟩ := ih (l ++ [a]) b c (by simp [hp]) hb
      refine ⟨d, e, h1, h2, h3, fun rounds hr => ?_⟩
      cases rounds with
      | zero => cases hr
      | succ rounds =>
        unfold Heap.search
        rw [if_neg (hi.ne_null hf.right_mem), if_pos hlt, hnext]
        exact h4 rounds (Nat.lt_of_succ_lt_succ hr)
    · refine ⟨a, b, hf, ha, by omega, fun rounds hr => ?_⟩
      cases rounds with
      | zero => cases hr
      | succ rounds =>
        unfold Heap.search
        rw [if_neg (hi.ne_null hf.right_mem), if_neg hlt]

/-- Whether a key is in the list is seen at the node where the search ends; `INT_MAX` is always
found. -/
theorem found_iff (hi : Intact h p S) (hf : Follows p a b) (ha : rank h.key a < k)
    (hb : k ≤ h.key b) (hk : INT_MIN ≤ k) (hk' : k ≤ INT_MAX) :
    h.key b = k ↔ k = INT_MAX ∨ k ∈ S := by
  by_cases hmax : k = INT_MAX
  · have hle := hi.path.rank_le hf.right_mem
    rw [hi.path.rank_right hf] at hle
    simp only [hmax, true_or, iff_true]
    omega
  · have hlt : k < INT_MAX := by omega
    rw [hi.path.mem_iff hf ha hb hk hlt]
    simp [hmax]

/-- The node where the search for `INT_MAX` ends is the tail. -/
theorem eq_tail (hi : Intact h p S) (hf : Follows p a b) (hb : INT_MAX ≤ h.key b) : b = TAIL := by
  have hle := hi.path.rank_le hf.right_mem
  have hr := hi.path.rank_right hf
  refine hi.path.asc.inj hf.right_mem hi.tail_mem ?_
  rw [rank_of_ne (by decide : TAIL ≠ HEAD), hi.path.tail]
  omega

/-- The keys of the list are read in strictly ascending order. -/
theorem keys_returns (hi : Intact h p S) :
    ∃ ks, Returns (fun n => h.keys n) ks ∧ ks.Pairwise (· < ·) ∧ ∀ k, k ∈ ks ↔ k ∈ S := by
  obtain ⟨ns, hp, hasc, hS⟩ := hi.path.between
  have key : ∀ (ns l : List Nat) (it : Nat), p = HEAD :: l ++ (ns ++ [TAIL]) →
      (ns ++ [TAIL]).head? = some it → ∀ rounds, ns.length < rounds →
      h.listKeys rounds it = .ok (ns.map h.key) := by
    intro ns
    -- by induction on the nodes that are left
    induction ns with
    | nil =>
      intro l it _ hit rounds hr
      have : it = TAIL := by simpa using hit.symm
      obtain ⟨m, rfl⟩ : ∃ m, rounds = m + 1 := ⟨rounds - 1, by simp at hr; omega⟩
      unfold Heap.listKeys
      rw [if_pos this]
      rfl
    | cons x ns ih =>
      intro l it hp hit rounds hr
      have hix : it = x := by simpa using hit.symm
      have hxp : x ∈ p := by rw [hp]; simp
      obtain ⟨y, hy⟩ : ∃ y, (ns ++ [TAIL]).head? = some y := by
        cases ns with
        | nil => exact ⟨TAIL, rfl⟩
        | cons y ns => exact ⟨y, rfl⟩
      have hf : Follows p x y := by
        obtain ⟨q, hq⟩ := List.head?_eq_some_iff.mp hy
        refine follows_iff.mpr ⟨HEAD :: l, q, ?_⟩
        have hx : x :: ns ++ [TAIL] = x :: y :: q := congrArg (x :: ·) hq
        rw [hp, hx]
      obtain ⟨m, rfl⟩ : ∃ m, rounds = m + 1 := ⟨rounds - 1, by simp at hr; omega⟩
      unfold Heap.listKeys
      rw [hix, if_neg (hi.ne_tail hf), if_neg (hi.ne_null hxp), hi.links x y hf,
        ih (l ++ [x]) y (by simp [hp]) hy m (by simp at hr; omega)]
      rfl
  refine ⟨ns.map h.key, ⟨ns.length + 1, fun n hn => ?_⟩, hasc, fun k => ?_⟩
  · have hf := hi.follows_head
    have hhead : (ns ++ [TAIL]).head? = some (h.next HEAD) := by
      rw [hp] at hf
      rcases follows_cons.mp hf with ⟨-, hd⟩ | hf
      · exact hd
      · have hnd := hi.path.asc.nodup
        rw [hp] at hnd
        exact absurd hf.left_mem (List.nodup_cons.mp hnd).1
    exact key ns [] (h.next HEAD) hp hhead n hn
  · rw [hS, List.mem_toFinset]

/-! ## Changing the list -/

/-- A node that is not allocated is not in the list. -/
theorem notMem_of_free (hi : Intact h p S) (hn : h.live n = false) : n ∉ p := by
  intro hc
  rw [hi.live n hc] at hn
  cases hn

theorem put (hi : Intact h p S) (hn : h.live n = false) (hnull : n ≠ NULL) (junk : Nat) :
    Intact (h.put n junk k) p S := by
  have hne : ∀ x ∈ p, x ≠ n := fun x hx he => hi.notMem_of_free hn (he ▸ hx)
  refine ⟨hi.path.congr fun x hx => ?_, ?_, fun x y hf => ?_, ?_, fun x hx => ?_, ?_, fun x hx => ?_⟩
  · exact Function.update_of_ne (hne x hx) _ _
  · exact (Function.update_of_ne (hne HEAD hi.path.head_mem) _ _).trans hi.head
  · exact (Function.update_of_ne (hne x hf.left_mem) _ _).trans (hi.links x y hf)
  · exact (Function.update_of_ne (hne TAIL hi.tail_mem) _ _).trans hi.last
  · exact (Function.update_of_ne (hne x hx) _ _).trans (hi.live x hx)
  · exact (Function.update_of_ne hnull.symm _ _).trans hi.null
  · exact (Function.update_of_ne (hne x hx) _ _).trans (hi.unlocked x hx)

/-- A node is put in between two neighbours. -/
theorem insert (hi : Intact h p S) (hf : Follows p a b) (hn : n ∉ p) (hlive : h.live n = true)
    (hlocked : h.locked n = false) (ha : rank h.key a < h.key n) (hb : h.key n < h.key b) :
    ∃ p', Intact ((h.setNext a n).setNext n b) p' (insert (h.key n) S) ∧
      ∀ x ∈ p', x = n ∨ x ∈ p := by
  have hhead : n ≠ HEAD := fun he => hn (he ▸ hi.path.head_mem)
  have hna : n ≠ a := fun he => hn (he ▸ hf.left_mem)
  have hnt : n ≠ TAIL := fun he => hn (he ▸ hi.tail_mem)
  have hat : a ≠ TAIL := hi.ne_tail hf
  obtain ⟨p', hpath, hmem, hfol⟩ := hi.path.insert hf hhead hnt ha hb
  refine ⟨p', ⟨hpath, hi.head, fun x y hxy => ?_, ?_, fun x hx => ?_, hi.null, fun x hx => ?_⟩,
    fun x hx => (hmem x).mp hx⟩
  · show Function.update (Function.update h.next a n) n b x = y
    rcases (hfol x y).mp hxy with ⟨rfl, rfl⟩ | ⟨rfl, rfl⟩ | ⟨hxy, hxa⟩
    · rw [Function.update_of_ne hna.symm, Function.update_self]
    · rw [Function.update_self]
    · have hxn : x ≠ n := fun he => hn (he ▸ hxy.left_mem)
      rw [Function.update_of_ne hxn, Function.update_of_ne hxa]
      exact hi.links x y hxy
  · show Function.update (Function.update h.next a n) n b TAIL = NULL
    rw [Function.update_of_ne hnt.symm, Function.update_of_ne hat.symm]
    exact hi.last
  · rcases (hmem x).mp hx with rfl | hx
    · exact hlive
    · exact hi.live x hx
  · rcases (hmem x).mp hx with rfl | hx
    · exact hlocked
    · exact hi.unlocked x hx

/-- A node between the sentinels is taken out. -/
theorem erase (hi : Intact h p S) (hf : Follows p a b) (hb : b ≠ TAIL) :
    ∃ p', Intact (h.setNext a (h.next b)) p' (S.erase (h.key b)) ∧ (∀ x ∈ p', x ∈ p) ∧ b ∉ p' := by
  obtain ⟨c, hf'⟩ : ∃ c, Follows p b c := by
    refine exists_follows hf.right_mem ?_
    rw [hi.path.last]
    exact fun he => hb (Option.some.inj he).symm
  obtain ⟨p', hpath, hmem, hfol⟩ := hi.path.erase hf hf'
  have hat : a ≠ TAIL := hi.ne_tail hf
  rw [hi.links b c hf']
  refine ⟨p', ⟨hpath, hi.head, fun x y hxy => ?_, ?_, fun x hx => ?_, hi.null, fun x hx => ?_⟩,
    fun x hx => ((hmem x).mp hx).1, fun hc => ((hmem b).mp hc).2 rfl⟩
  · show Function.update h.next a c x = y
    rcases (hfol x y).mp hxy with ⟨rfl, rfl⟩ | ⟨hxy, hxa, -⟩
    · exact Function.update_self ..
    · rw [Function.update_of_ne hxa]
      exact hi.links x y hxy
  · show Function.update h.next a c TAIL = NULL
    rw [Function.update_of_ne hat.symm]
    exact hi.last
  · exact hi.live x ((hmem x).mp hx).1
  · exact hi.unlocked x ((hmem x).mp hx).1

theorem free (hi : Intact h p S) (hb : b ∉ p) : Intact (h.free b) p S := by
  refine ⟨hi.path, hi.head, hi.links, hi.last, fun x hx => ?_, ?_, hi.unlocked⟩
  · have hxb : x ≠ b := fun he => hb (he ▸ hx)
    exact (Function.update_of_ne hxb _ _).trans (hi.live x hx)
  · show Function.update h.live b false NULL = false
    by_cases hbn : NULL = b
    · rw [hbn, Function.update_self]
    · rw [Function.update_of_ne hbn]
      exact hi.null

/-- When the tail is taken out, the nodes no longer lead to it. -/
theorem cut (hi : Intact h p S) (hf : Follows p a TAIL) {g : Heap}
    (hnext : g.next = Function.update h.next a NULL) (hnull : g.live NULL = false) :
    ¬g.Linked := by
  rintro ⟨q, hhead, hlast, -, hlinks, -, hlive⟩
  obtain ⟨l, r, hp⟩ := follows_iff.mp hf
  have hnd := hi.path.asc.nodup
  have htail : TAIL ∉ l ++ [a] := by
    intro hc
    rw [hp, show l ++ a :: TAIL :: r = (l ++ [a]) ++ TAIL :: r by simp] at hnd
    exact (List.disjoint_of_nodup_append hnd) hc List.mem_cons_self
  -- who starts at the head and goes on stays before the tail
  have hstay : ∀ x y, x ∈ l ++ [a] → Follows q x y → y ∈ l ++ [a] := by
    intro x y hx hxy
    have hy : g.next x = y := hlinks x y hxy
    rw [hnext] at hy
    by_cases hxa : x = a
    · rw [hxa, Function.update_self] at hy
      have := hlive y hxy.right_mem
      rw [← hy, hnull] at this
      cases this
    · rw [Function.update_of_ne hxa] at hy
      have hxl : x ∈ l := by
        rcases List.mem_append.mp hx with hx | hx
        · exact hx
        · exact absurd (List.mem_singleton.mp hx) hxa
      obtain ⟨l1, l2, rfl⟩ := List.append_of_mem hxl
      cases l2 with
      | nil =>
        have : h.next x = a := hi.links x a (follows_iff.mpr ⟨l1, TAIL :: r, by simp [hp]⟩)
        rw [← hy, this]
        simp
      | cons z l2 =>
        have : h.next x = z := hi.links x z (follows_iff.mpr ⟨l1, l2 ++ a :: TAIL :: r, by simp [hp]⟩)
        rw [← hy, this]
        simp
  have hh : HEAD ∈ l ++ [a] := by
    have hhp := hi.path.head
    rw [hp] at hhp
    cases l with
    | nil => simpa using hhp.symm
    | cons z l => simp at hhp; simp [hhp]
  exact htail (forall_of_follows hhead hh (fun x y hxy hx => hstay x y hx hxy) TAIL
    (List.mem_of_getLast? hlast))

end Intact

end MulticorePrac.ListSet
