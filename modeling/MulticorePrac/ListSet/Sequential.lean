import MulticorePrac.ListSet.Heap

/-!
# Lab11: the three lists in one thread

The operations of `coarse_grained.cpp`, `fine_grained.cpp` and `optimistic.cpp` as functions on
the heap, for calls with any `int` keys.  All three find the place of the key and then do
the same there (`addAt`, `removeAt`); they differ in the locks they take on the way, in
`list_validate` and in whether a node that was taken out is freed (`Finds`).

The tail has the key `INT_MAX`, and no operation tells it from other nodes: `list_contains`
finds `INT_MAX` in every list, and `list_remove` takes the tail out (`tail_removed`).  All other
calls do what they should (`sentinels_kept_iff`).
-/

namespace MulticorePrac.ListSet

/-- A call, with the address that `malloc` gives it and what is in the `next` field there. -/
structure Call where
  op : Op
  addr : Nat
  junk : Nat
  deriving DecidableEq, Repr

/-! ## `coarse_grained.cpp` -/

namespace Coarse

/-- The part of `list_add` under `g_mutex`. -/
def addSection (rounds : Nat) (h : Heap) (node : Nat) (key : Int) : Except Fault (Heap × Bool) := do
  let (prev, curr) ← h.search key rounds HEAD (h.next HEAD)
  if h.key curr = key then .ok (h, false)
  else .ok ((h.setNext prev node).setNext node curr, true)

/-- The part of `list_remove` under `g_mutex`; the node that was taken out is still to be freed. -/
def removeSection (rounds : Nat) (h : Heap) (key : Int) : Except Fault (Heap × Option Nat) := do
  let (prev, curr) ← h.search key rounds HEAD (h.next HEAD)
  if h.key curr ≠ key then .ok (h, none)
  else .ok (h.setNext prev (h.next curr), some curr)

/-- The part of `list_contains` under `g_mutex`. -/
def containsSection (rounds : Nat) (h : Heap) (key : Int) : Except Fault Bool := do
  let (_, curr) ← h.search key rounds HEAD (h.next HEAD)
  .ok (decide (h.key curr = key))

def exec (rounds : Nat) (h : Heap) (c : Call) : Except Fault (Heap × Bool) :=
  match c.op with
  | .add key => do
    let h ← h.malloc c.addr c.junk key
    addSection rounds h c.addr key
  | .remove key => do
    let (h, curr) ← removeSection rounds h key
    match curr with
    | none => .ok (h, false)
    | some curr => .ok (h.free curr, true)
  | .contains key => do
    let ret ← containsSection rounds h key
    .ok (h, ret)

end Coarse

/-! ## `fine_grained.cpp` -/

namespace Fine

/-- The loop, which locks the next node before it goes on. -/
def couple (key : Int) : Nat → Heap → Nat → Nat → Except Fault (Heap × Nat × Nat)
  | 0, _, _, _ => .error .spins
  | rounds + 1, h, prev, curr =>
    if h.key curr < key then do
      let h := h.unlock prev
      let next := h.next curr
      let h ← h.lock next
      couple key rounds h curr next
    else .ok (h, prev, curr)

/-- From the start of an operation to the end of its loop. -/
def find (rounds : Nat) (h : Heap) (key : Int) : Except Fault (Heap × Nat × Nat) := do
  let h ← h.lock HEAD
  let curr := h.next HEAD
  let h ← h.lock curr
  couple key rounds h HEAD curr

def exec (rounds : Nat) (h : Heap) (c : Call) : Except Fault (Heap × Bool) :=
  match c.op with
  | .add key => do
    let h ← h.malloc c.addr c.junk key
    let (h, prev, curr) ← find rounds h key
    if h.key curr = key then .ok ((h.unlock prev).unlock curr, false)
    else
      let h := (h.setNext prev c.addr).setNext c.addr curr
      .ok ((h.unlock prev).unlock curr, true)
  | .remove key => do
    let (h, prev, curr) ← find rounds h key
    if h.key curr ≠ key then .ok ((h.unlock prev).unlock curr, false)
    else
      let h := h.setNext prev (h.next curr)
      .ok (((h.unlock prev).unlock curr).free curr, true)
  | .contains key => do
    let (h, prev, curr) ← find rounds h key
    .ok ((h.unlock prev).unlock curr, decide (h.key curr = key))

end Fine

/-! ## `optimistic.cpp` -/

namespace Opt

/-- The loop of `list_validate`. -/
def listValidate (h : Heap) (prev curr : Nat) : Nat → Nat → Except Fault Bool
  | 0, _ => .error .spins
  | rounds + 1, it =>
    if it = NULL then .error .nullNext
    else if h.key it ≤ h.key prev then
      if it = prev then .ok (decide (h.next it = curr))
      else listValidate h prev curr rounds (h.next it)
    else .ok false

/-- The outer loop of an operation, to the try for which `list_validate` returns true. -/
def find (key : Int) (rounds : Nat) : Nat → Heap → Except Fault (Heap × Nat × Nat)
  | 0, _ => .error .spins
  | tries + 1, h => do
    let (prev, curr) ← h.search key rounds HEAD (h.next HEAD)
    let h ← h.lock prev
    let h ← h.lock curr
    let valid ← listValidate h prev curr rounds HEAD
    if valid then .ok (h, prev, curr)
    else find key rounds tries ((h.unlock prev).unlock curr)

def exec (rounds : Nat) (h : Heap) (c : Call) : Except Fault (Heap × Bool) :=
  match c.op with
  | .add key => do
    let h ← h.malloc c.addr c.junk key
    let (h, prev, curr) ← find key rounds rounds h
    if h.key curr = key then .ok ((h.unlock prev).unlock curr, false)
    else
      let h := (h.setNext c.addr curr).setNext prev c.addr
      .ok ((h.unlock prev).unlock curr, true)
  | .remove key => do
    let (h, prev, curr) ← find key rounds rounds h
    if h.key curr ≠ key then .ok ((h.unlock prev).unlock curr, false)
    else
      let h := h.setNext prev (h.next curr)
      .ok ((h.unlock prev).unlock curr, true)
  | .contains key => do
    let (h, prev, curr) ← find key rounds rounds h
    .ok ((h.unlock prev).unlock curr, decide (h.key curr = key))

end Opt

/-! ## What the operations do at the place they have found -/

def addAt (h : Heap) (a b n : Nat) (k : Int) : Heap × Bool :=
  if h.key b = k then (h, false) else ((h.setNext a n).setNext n b, true)

/-- `frees`: the node that was taken out is freed. -/
def removeAt (frees : Bool) (h : Heap) (a b : Nat) (k : Int) : Heap × Bool :=
  if h.key b ≠ k then (h, false)
  else
    let h := h.setNext a (h.next b)
    (if frees then h.free b else h, true)

/-- The place of a key on the path. -/
structure At (h : Heap) (p : List Nat) (k : Int) (a b : Nat) : Prop where
  follows : Follows p a b
  below : rank h.key a < k
  above : k ≤ h.key b

/-- The allocator gives the call an address that is not allocated. -/
def Allocates (h : Heap) (c : Call) : Prop :=
  c.op.needsNode = true → h.live c.addr = false ∧ c.addr ≠ NULL

/-- A list finds the place of the key on an intact path, and does there what it should. -/
structure Finds (exec : Nat → Heap → Call → Except Fault (Heap × Bool)) (frees : Bool) : Prop where
  add : ∀ {h p S k} (addr junk : Nat), Intact h p S → INT_MIN ≤ k → k ≤ INT_MAX →
    h.live addr = false → addr ≠ NULL → ∃ a b, At (h.put addr junk k) p k a b ∧
      Returns (fun n => exec n h ⟨.add k, addr, junk⟩) (addAt (h.put addr junk k) a b addr k)
  remove : ∀ {h p S k} (addr junk : Nat), Intact h p S → INT_MIN ≤ k → k ≤ INT_MAX →
    ∃ a b, At h p k a b ∧
      Returns (fun n => exec n h ⟨.remove k, addr, junk⟩) (removeAt frees h a b k)
  contains : ∀ {h p S k} (addr junk : Nat), Intact h p S → INT_MIN ≤ k → k ≤ INT_MAX →
    ∃ a b, At h p k a b ∧
      Returns (fun n => exec n h ⟨.contains k, addr, junk⟩) (h, decide (h.key b = k))

section
variable {h : Heap} {p : List Nat} {S : Finset Int} {k : Int}

/-- The unlocked search ends at the place of the key. -/
theorem Intact.search_returns (hi : Intact h p S) (hk : INT_MIN ≤ k) (hk' : k ≤ INT_MAX) :
    ∃ a b, At h p k a b ∧ Returns (fun n => h.search k n HEAD (h.next HEAD)) (a, b) := by
  obtain ⟨l, r, hp⟩ := follows_iff.mp hi.follows_head
  obtain ⟨a, b, hf, ha, hb, hsearch⟩ := hi.search_eq hk' r l HEAD (h.next HEAD) hp
    (by rw [rank_head]; omega)
  exact ⟨a, b, ⟨hf, ha, hb⟩, r.length + 1, fun n hn => hsearch n hn⟩

/-- With any number of rounds it ends there or not at all. -/
theorem Intact.search_at (hi : Intact h p S) (hk : INT_MIN ≤ k) (hk' : k ≤ INT_MAX) (rounds : Nat) :
    h.search k rounds HEAD (h.next HEAD) = .error .spins ∨
      ∃ a b, At h p k a b ∧ h.search k rounds HEAD (h.next HEAD) = .ok (a, b) := by
  obtain ⟨a, b, hat, m, hm⟩ := hi.search_returns hk hk'
  by_cases hspins : h.search k rounds HEAD (h.next HEAD) = .error .spins
  · exact Or.inl hspins
  · refine Or.inr ⟨a, b, hat, ?_⟩
    rw [← h.search_stable k rounds (max rounds m) _ _ (le_max_left _ _) hspins]
    exact hm _ (le_max_right _ _)

theorem malloc_eq {addr : Nat} (hlive : h.live addr = false) (hnull : addr ≠ NULL) (junk : Nat) :
    h.malloc addr junk k = .ok (h.put addr junk k) := by
  unfold Heap.malloc
  rw [if_neg]
  rintro (hc | hc)
  · rw [hlive] at hc
    cases hc
  · exact hnull hc

end

namespace Coarse

section
variable {h : Heap} {k : Int} {rounds a b : Nat}
  (hs : h.search k rounds HEAD (h.next HEAD) = .ok (a, b))
include hs

theorem addSection_eq (node : Nat) : addSection rounds h node k = .ok (addAt h a b node k) := by
  unfold addSection addAt
  rw [hs]
  show (if _ then _ else _) = _
  split <;> rfl

theorem removeSection_eq : removeSection rounds h k =
    .ok (if h.key b ≠ k then (h, none) else (h.setNext a (h.next b), some b)) := by
  unfold removeSection
  rw [hs]
  show (if _ then _ else _) = _
  split <;> rfl

theorem containsSection_eq : containsSection rounds h k = .ok (decide (h.key b = k)) := by
  unfold containsSection
  rw [hs]
  rfl

end

theorem finds : Finds exec true where
  add := by
    intro h p S k addr junk hi hk hk' hlive hnull
    obtain ⟨a, b, hat, m, hm⟩ := (hi.put (k := k) hlive hnull junk).search_returns hk hk'
    refine ⟨a, b, hat, m, fun n hn => ?_⟩
    show (h.malloc addr junk k >>= fun h => addSection n h addr k) = _
    rw [malloc_eq hlive hnull]
    exact addSection_eq (hm n hn) addr
  remove := by
    intro h p S k addr junk hi hk hk'
    obtain ⟨a, b, hat, m, hm⟩ := hi.search_returns hk hk'
    refine ⟨a, b, hat, m, fun n hn => ?_⟩
    simp only [exec, removeSection_eq (hm n hn), removeAt]
    by_cases hkey : h.key b = k
    · simp only [hkey, ne_eq, not_true, if_false, if_true]
      rfl
    · simp only [hkey, ne_eq, not_false_iff, if_true]
      rfl
  contains := by
    intro h p S k addr junk hi hk hk'
    obtain ⟨a, b, hat, m, hm⟩ := hi.search_returns hk hk'
    refine ⟨a, b, hat, m, fun n hn => ?_⟩
    simp only [exec, containsSection_eq (hm n hn)]
    rfl

end Coarse

/-! ## The locks of the other lists -/

/-- The heap with the mutexes of two nodes held. -/
def Heap.hold (h : Heap) (a b : Nat) : Heap :=
  { h with locked := Function.update (Function.update h.locked a true) b true }

section
variable {h : Heap} {a b c : Nat}

theorem lock_eq (ha : a ≠ NULL) (hla : h.locked a = false) :
    h.lock a = .ok { h with locked := Function.update h.locked a true } := by
  unfold Heap.lock
  rw [if_neg ha, hla]
  rfl

theorem lock_second (hb : b ≠ NULL) (hab : a ≠ b) (hlb : h.locked b = false) :
    Heap.lock { h with locked := Function.update h.locked a true } b = .ok (h.hold a b) := by
  refine lock_eq hb ?_
  show Function.update h.locked a true b = false
  rw [Function.update_of_ne hab.symm, hlb]

theorem unlock_hold (hla : h.locked a = false) (hlb : h.locked b = false) :
    ((h.hold a b).unlock a).unlock b = h := by
  have hl : Function.update (Function.update (Function.update (Function.update h.locked a true) b
      true) a false) b false = h.locked := by
    funext x
    by_cases hxb : x = b
    · rw [hxb, Function.update_self, hlb]
    · rw [Function.update_of_ne hxb]
      by_cases hxa : x = a
      · rw [hxa, Function.update_self, hla]
      · rw [Function.update_of_ne hxa, Function.update_of_ne hxb, Function.update_of_ne hxa]
  obtain ⟨key, next, live, locked⟩ := h
  simp only [Heap.hold, Heap.unlock, Heap.mk.injEq, true_and]
  exact hl

/-- The mutexes of two neighbours are given back after writes to the nodes. -/
theorem Intact.unlock_hold {p : List Nat} {S : Finset Int} (hi : Intact h p S)
    (hf : Follows p a b) (g : Heap) (hg : g.locked = h.locked) :
    ((g.hold a b).unlock a).unlock b = g := by
  refine ListSet.unlock_hold ?_ ?_
  · rw [hg]
    exact hi.unlocked a hf.left_mem
  · rw [hg]
    exact hi.unlocked b hf.right_mem

/-- The step of the lock coupling: the next node is locked, and `prev` given back. -/
theorem lock_unlock_hold (hab : a ≠ b) (hca : c ≠ b) (hc : c ≠ NULL) (hla : h.locked a = false)
    (hlc : h.locked c = false) : ((h.hold a b).unlock a).lock c = .ok (h.hold b c) := by
  have hl : Function.update (Function.update (Function.update h.locked a true) b true) a false =
      Function.update h.locked b true := by
    funext x
    by_cases hxa : x = a
    · rw [hxa, Function.update_self, Function.update_of_ne hab, hla]
    · rw [Function.update_of_ne hxa]
      by_cases hxb : x = b
      · rw [hxb, Function.update_self, Function.update_self]
      · rw [Function.update_of_ne hxb, Function.update_of_ne hxb, Function.update_of_ne hxa]
  unfold Heap.lock
  rw [if_neg hc]
  simp only [Heap.hold, Heap.unlock, hl, Function.update_of_ne hca, hlc]
  rfl

end

namespace Fine

section
variable {h : Heap} {p : List Nat} {S : Finset Int} {k : Int}

/-- On an intact path the lock coupling goes where the unlocked search goes, and ends with the two
mutexes held. -/
theorem couple_eq (hi : Intact h p S) (hk : k ≤ INT_MAX) : ∀ (rounds a b : Nat), Follows p a b →
    couple k rounds (h.hold a b) a b =
      (h.search k rounds a b).map fun x => (h.hold x.1 x.2, x.1, x.2) := by
  intro rounds
  induction rounds with
  | zero => intro a b _; rfl
  | succ rounds ih =>
    intro a b hf
    unfold couple Heap.search
    rw [if_neg (hi.ne_null hf.right_mem)]
    show (if h.key b < k then _ else _) = _
    by_cases hlt : h.key b < k
    · rw [if_pos hlt, if_pos hlt]
      obtain ⟨c, hf'⟩ := hi.path.follows hf.right_mem (by rw [hi.path.rank_right hf]; omega)
      have hlock : ((h.hold a b).unlock a).lock (h.next b) = .ok (h.hold b (h.next b)) := by
        rw [hi.links b c hf']
        exact lock_unlock_hold (hi.path.ne hf) (hi.path.ne hf').symm (hi.ne_null hf'.right_mem)
          (hi.unlocked a hf.left_mem) (hi.unlocked c hf'.right_mem)
      show (((h.hold a b).unlock a).lock (h.next b) >>= fun g => couple k rounds g b (h.next b)) = _
      rw [hlock]
      refine ih b (h.next b) ?_
      rw [hi.links b c hf']
      exact hf'
    · rw [if_neg hlt, if_neg hlt]
      rfl

theorem find_returns (hi : Intact h p S) (hk : INT_MIN ≤ k) (hk' : k ≤ INT_MAX) :
    ∃ a b, At h p k a b ∧ Returns (fun n => find n h k) (h.hold a b, a, b) := by
  obtain ⟨a, b, hat, m, hm⟩ := hi.search_returns hk hk'
  refine ⟨a, b, hat, m, fun n hn => ?_⟩
  have hf := hi.follows_head
  show find n h k = _
  unfold find
  rw [lock_eq (hi.ne_null hf.left_mem) (hi.unlocked _ hf.left_mem)]
  show (Heap.lock { h with locked := Function.update h.locked HEAD true } (h.next HEAD) >>= _) = _
  rw [lock_second (hi.ne_null hf.right_mem) (hi.path.ne hf) (hi.unlocked _ hf.right_mem)]
  show couple k n (h.hold HEAD (h.next HEAD)) HEAD (h.next HEAD) = _
  rw [couple_eq hi hk' n HEAD _ hf]
  have hs : h.search k n HEAD (h.next HEAD) = .ok (a, b) := hm n hn
  rw [hs]
  rfl

end

theorem finds : Finds exec true where
  add := by
    intro h p S k addr junk hi hk hk' hlive hnull
    have hi' := hi.put (k := k) hlive hnull junk
    obtain ⟨a, b, hat, m, hm⟩ := find_returns hi' hk hk'
    refine ⟨a, b, hat, m, fun n hn => ?_⟩
    have hfind : find n (h.put addr junk k) k = _ := hm n hn
    simp only [exec, malloc_eq hlive hnull]
    show (find n (h.put addr junk k) k >>= _) = _
    rw [hfind]
    show (if (h.put addr junk k).key b = k then _ else _) = _
    unfold addAt
    by_cases hkey : (h.put addr junk k).key b = k
    · rw [if_pos hkey, if_pos hkey, hi'.unlock_hold hat.follows _ rfl]
    · rw [if_neg hkey, if_neg hkey]
      exact congrArg (fun g => Except.ok (g, true))
        (hi'.unlock_hold hat.follows (((h.put addr junk k).setNext a addr).setNext addr b) rfl)
  remove := by
    intro h p S k addr junk hi hk hk'
    obtain ⟨a, b, hat, m, hm⟩ := find_returns hi hk hk'
    refine ⟨a, b, hat, m, fun n hn => ?_⟩
    have hfind : find n h k = _ := hm n hn
    show (find n h k >>= _) = _
    rw [hfind]
    show (if h.key b ≠ k then _ else _) = _
    unfold removeAt
    by_cases hkey : h.key b ≠ k
    · rw [if_pos hkey, if_pos hkey, hi.unlock_hold hat.follows _ rfl]
    · rw [if_neg hkey, if_neg hkey]
      exact congrArg (fun g => Except.ok (Heap.free g b, true))
        (hi.unlock_hold hat.follows (h.setNext a (h.next b)) rfl)
  contains := by
    intro h p S k addr junk hi hk hk'
    obtain ⟨a, b, hat, m, hm⟩ := find_returns hi hk hk'
    refine ⟨a, b, hat, m, fun n hn => ?_⟩
    have hfind : find n h k = _ := hm n hn
    show (find n h k >>= _) = _
    rw [hfind]
    exact congrArg (fun g => Except.ok (g, decide (h.key b = k)))
      (hi.unlock_hold hat.follows h rfl)

end Fine

namespace Opt

section
variable {h : Heap} {p : List Nat} {S : Finset Int} {k : Int} {a b : Nat}

/-- Nodes before `a` have no larger keys. -/
theorem key_le (hi : Intact h p S) {l r : List Nat} {x : Nat} (hp : p = l ++ a :: r)
    (hx : x ∈ l) : h.key x ≤ h.key a := by
  have hasc := hi.path.asc
  rw [hp] at hasc
  have hlt : rank h.key x < rank h.key a :=
    (List.pairwise_append.mp hasc).2.2 x hx a List.mem_cons_self
  have hle := hi.path.le_rank (a := x) (by rw [hp]; exact List.mem_append_left _ hx)
  have ha : a ≠ HEAD := by
    rintro rfl
    rw [rank_head] at hlt
    omega
  rw [rank_of_ne ha] at hlt
  by_cases hxh : x = HEAD
  · rw [hxh, hi.head]
    omega
  · rw [rank_of_ne hxh] at hlt
    omega

/-- `list_validate` goes from the head to `prev` and finds `curr` after it. -/
theorem listValidate_eq (hi : Intact h p S) (hf : Follows p a b) {r : List Nat} :
    ∀ (m l : List Nat) (it : Nat), p = l ++ m ++ a :: r → (m ++ [a]).head? = some it →
      ∀ rounds, m.length < rounds → listValidate h a b rounds it = .ok true := by
  intro m
  -- by induction on the nodes that are left before `prev`
  induction m with
  | nil =>
    intro l it _ hit rounds hr
    have hia : it = a := by simpa using hit.symm
    cases rounds with
    | zero => cases hr
    | succ rounds =>
      unfold listValidate
      rw [hia, if_neg (hi.ne_null hf.left_mem), if_pos (Int.le_refl _), if_pos rfl,
        hi.links a b hf]
      simp
  | cons x m ih =>
    intro l it hp hit rounds hr
    have hix : it = x := by simpa using hit.symm
    have hx : x ∈ l ++ x :: m := List.mem_append_right _ List.mem_cons_self
    have hxa : x ≠ a := by
      rintro rfl
      have hnd := hi.path.asc.nodup
      rw [hp] at hnd
      exact (List.disjoint_of_nodup_append hnd) hx List.mem_cons_self
    obtain ⟨y, hy⟩ : ∃ y, (m ++ [a]).head? = some y := by
      cases m with
      | nil => exact ⟨a, rfl⟩
      | cons y m => exact ⟨y, rfl⟩
    have hnext : h.next x = y := by
      refine hi.links x y ?_
      cases m with
      | nil =>
        have : y = a := by simpa using hy.symm
        exact follows_iff.mpr ⟨l, r, by simp [hp, this]⟩
      | cons z m =>
        have : y = z := by simpa using hy.symm
        exact follows_iff.mpr ⟨l, m ++ a :: r, by simp [hp, this]⟩
    cases rounds with
    | zero => cases hr
    | succ rounds =>
      unfold listValidate
      rw [hix, if_neg (hi.ne_null (by rw [hp]; simp)), if_pos (key_le hi hp hx), if_neg hxa, hnext]
      exact ih (l ++ [x]) y (by simp [hp]) hy rounds (Nat.lt_of_succ_lt_succ hr)

theorem listValidate_returns (hi : Intact h p S) (hf : Follows p a b) :
    Returns (fun n => listValidate h a b n HEAD) true := by
  obtain ⟨l, r, hp⟩ := follows_iff.mp hf
  refine ⟨l.length + 1, fun n hn => ?_⟩
  refine listValidate_eq hi hf (r := b :: r) l [] HEAD hp ?_ n hn
  have hhead := hi.path.head
  rw [hp] at hhead
  cases l with
  | nil => simpa using hhead
  | cons x l => simpa using hhead

theorem find_returns (hi : Intact h p S) (hk : INT_MIN ≤ k) (hk' : k ≤ INT_MAX) :
    ∃ a b, At h p k a b ∧ Returns (fun n => find k n n h) (h.hold a b, a, b) := by
  obtain ⟨a, b, hat, m, hm⟩ := hi.search_returns hk hk'
  obtain ⟨m', hm'⟩ := listValidate_returns hi hat.follows
  have hf := hat.follows
  refine ⟨a, b, hat, m + m' + 1, fun n hn => ?_⟩
  obtain ⟨n', rfl⟩ : ∃ n', n = n' + 1 := ⟨n - 1, by omega⟩
  have hs : h.search k (n' + 1) HEAD (h.next HEAD) = .ok (a, b) := hm _ (by omega)
  -- the tests of `list_validate` do not depend on the mutexes
  have hv : listValidate (h.hold a b) a b (n' + 1) HEAD = .ok true := by
    have hsame : ∀ rounds it, listValidate (h.hold a b) a b rounds it =
        listValidate h a b rounds it := by
      intro rounds
      induction rounds with
      | zero => intro it; rfl
      | succ rounds ih =>
        intro it
        unfold listValidate
        rw [ih]
        rfl
    rw [hsame]
    exact hm' _ (by omega)
  show find k (n' + 1) (n' + 1) h = _
  unfold find
  rw [hs]
  show (h.lock a >>= _) = _
  rw [lock_eq (hi.ne_null hf.left_mem) (hi.unlocked _ hf.left_mem)]
  show (Heap.lock { h with locked := Function.update h.locked a true } b >>= _) = _
  rw [lock_second (hi.ne_null hf.right_mem) (hi.path.ne hf) (hi.unlocked _ hf.right_mem)]
  show (listValidate (h.hold a b) a b (n' + 1) HEAD >>= _) = _
  rw [hv]
  rfl

end

theorem finds : Finds exec false where
  add := by
    intro h p S k addr junk hi hk hk' hlive hnull
    have hi' := hi.put (k := k) hlive hnull junk
    obtain ⟨a, b, hat, m, hm⟩ := find_returns hi' hk hk'
    have hne : addr ≠ a := fun he => hi.notMem_of_free hlive (he ▸ hat.follows.left_mem)
    -- the two writes are to different nodes
    have hwrites : ((h.put addr junk k).setNext addr b).setNext a addr =
        ((h.put addr junk k).setNext a addr).setNext addr b := by
      unfold Heap.setNext
      dsimp only
      rw [Function.update_comm hne]
    refine ⟨a, b, hat, m, fun n hn => ?_⟩
    have hfind : find k n n (h.put addr junk k) = _ := hm n hn
    simp only [exec, malloc_eq hlive hnull]
    show (find k n n (h.put addr junk k) >>= _) = _
    rw [hfind]
    show (if (h.put addr junk k).key b = k then _ else _) = _
    unfold addAt
    by_cases hkey : (h.put addr junk k).key b = k
    · rw [if_pos hkey, if_pos hkey, hi'.unlock_hold hat.follows _ rfl]
    · rw [if_neg hkey, if_neg hkey, ← hwrites]
      exact congrArg (fun g => Except.ok (g, true))
        (hi'.unlock_hold hat.follows (((h.put addr junk k).setNext addr b).setNext a addr) rfl)
  remove := by
    intro h p S k addr junk hi hk hk'
    obtain ⟨a, b, hat, m, hm⟩ := find_returns hi hk hk'
    refine ⟨a, b, hat, m, fun n hn => ?_⟩
    have hfind : find k n n h = _ := hm n hn
    show (find k n n h >>= _) = _
    rw [hfind]
    show (if h.key b ≠ k then _ else _) = _
    unfold removeAt
    by_cases hkey : h.key b ≠ k
    · rw [if_pos hkey, if_pos hkey, hi.unlock_hold hat.follows _ rfl]
    · rw [if_neg hkey, if_neg hkey]
      exact congrArg (fun g => Except.ok (g, true))
        (hi.unlock_hold hat.follows (h.setNext a (h.next b)) rfl)
  contains := by
    intro h p S k addr junk hi hk hk'
    obtain ⟨a, b, hat, m, hm⟩ := find_returns hi hk hk'
    refine ⟨a, b, hat, m, fun n hn => ?_⟩
    have hfind : find k n n h = _ := hm n hn
    show (find k n n h >>= _) = _
    rw [hfind]
    exact congrArg (fun g => Except.ok (g, decide (h.key b = k)))
      (hi.unlock_hold hat.follows h rfl)

end Opt

end MulticorePrac.ListSet
