import MulticorePrac.Lib.LockOrder
import MulticorePrac.ListSet.State

/-!
# Lab11: what the lists with a mutex in each node share

The operations of both lists lock two nodes, `prev` and `curr` (`TwoLocks`), compare
`curr->key` with their own key (`decision`), and `list_add` has a node of its own until it
links it (`OpReady`).

`Threads` is the part of the two invariants that is about the threads: each is at its place
and ready for what comes next, a mutex is owned by the thread that holds it, and what
belongs to a thread belongs to no other and is off the list.  `Threads.move` says what a step
has to keep of this; `Threads.quiet` is for a step that changes no node,
`Threads.outside` for a thread without locks, at a call or a return, and `Threads.malloc`
for a new node.

`deadlock_free`: if the mutexes are taken in ascending order, the threads never wait in a
cycle, and one that is in an operation can go on.
-/

namespace MulticorePrac.ListSet

/-! ## Two locks -/

/-- The mutex of `x` is one of those that are held of `prev` and `curr`. -/
def TwoLocks (hasPrev hasCurr : Bool) (prev curr x : Nat) : Prop :=
  (hasPrev = true ∧ x = prev) ∨ (hasCurr = true ∧ x = curr)

section
variable {a b a' b' : Bool} {prev curr : Nat}

theorem twoLocks_prev (h : a = true) : TwoLocks a b prev curr prev := Or.inl ⟨h, rfl⟩

theorem twoLocks_curr (h : b = true) : TwoLocks a b prev curr curr := Or.inr ⟨h, rfl⟩

theorem not_twoLocks (ha : a = false) (hb : b = false) (x : Nat) : ¬TwoLocks a b prev curr x := by
  subst ha hb
  rintro (⟨hc, -⟩ | ⟨hc, -⟩) <;> cases hc

theorem eq_prev_of_twoLocks (hb : b = false) {x : Nat} (h : TwoLocks a b prev curr x) : x = prev := by
  subst hb
  rcases h with ⟨-, hx⟩ | ⟨hc, -⟩
  · exact hx
  · cases hc

theorem twoLocks_congr (ha : a' = a) (hb : b' = b) (y : Nat) :
    TwoLocks a' b' prev curr y ↔ TwoLocks a b prev curr y := by
  rw [ha, hb]

/-- After `prev` is unlocked only `curr` is held. -/
theorem twoLocks_unlockPrev (hne : prev ≠ curr) (ha : a = true) (hb : b = true) (ha' : a' = false)
    (hb' : b' = true) (y : Nat) :
    TwoLocks a' b' prev curr y ↔ TwoLocks a b prev curr y ∧ y ≠ prev := by
  subst ha hb ha' hb'
  constructor
  · rintro (⟨hc, -⟩ | ⟨-, rfl⟩)
    · cases hc
    · exact ⟨twoLocks_curr rfl, Ne.symm hne⟩
  · rintro ⟨⟨-, rfl⟩ | ⟨-, rfl⟩, hy⟩
    · exact absurd rfl hy
    · exact twoLocks_curr rfl

/-- After `curr` is unlocked nothing is held. -/
theorem twoLocks_unlockCurr (ha : a = false) (hb : b = true) (ha' : a' = false) (hb' : b' = false)
    (y : Nat) : TwoLocks a' b' prev curr y ↔ TwoLocks a b prev curr y ∧ y ≠ curr := by
  refine iff_of_false (not_twoLocks ha' hb' y) ?_
  subst ha hb
  rintro ⟨⟨hc, -⟩ | ⟨-, rfl⟩, hy⟩
  · cases hc
  · exact hy rfl

end

/-! ## The operation -/

/-- The operation is in range, and so is the key of the node that it has. -/
structure OpReady (key : Nat → Int) (idle : Prop) (op : Op) (hasNode : Bool) (node : Nat) : Prop where
  range : ¬idle → op.InRange
  node_key : hasNode = true → op.needsNode = true → key node = op.key

theorem OpReady.of_idle {key : Nat → Int} {idle : Prop} {op : Op} {hasNode : Bool} {node : Nat}
    (hidle : idle) (hn : hasNode = false) : OpReady key idle op hasNode node :=
  ⟨fun hc => absurd hidle hc, fun h1 => absurd h1 (by rw [hn]; decide)⟩

theorem OpReady.of {key : Nat → Int} {idle idle' : Prop} {op op' : Op} {hasNode hasNode' : Bool}
    {node node' : Nat} (h : OpReady key idle op hasNode node) (hidle : ¬idle) (hop : op' = op)
    (hnode : node' = node) (hn : hasNode' = true → hasNode = true) :
    OpReady key idle' op' hasNode' node' := by
  subst hop hnode
  exact ⟨fun _ => h.range hidle, fun h1 h2 => h.node_key (hn h1) h2⟩

theorem OpReady.congr {key key' : Nat → Int} {idle : Prop} {op : Op} {hasNode : Bool} {node : Nat}
    (h : OpReady key idle op hasNode node)
    (hk : hasNode = true → op.needsNode = true → key' node = key node) :
    OpReady key' idle op hasNode node :=
  ⟨h.range, fun h1 h2 => (hk h1 h2).trans (h.node_key h1 h2)⟩

/-- What an operation decides when it compares its key with `curr->key`: to return a result, or to
change the list. -/
def decision (op : Op) (key : Int) : Option Bool :=
  match op with
  | .add k => if key = k then some false else none
  | .remove k => if key ≠ k then some false else none
  | .contains k => some (decide (key = k))

section
variable {S : Finset Int} {op : Op} {key : Int}

/-- An operation that returns has the result that it has on the set, and leaves the set as it is. -/
theorem decision_some (hmem : op.key ∈ S ↔ key = op.key) {r : Bool}
    (h : decision op key = some r) : setObject.apply S op = (S, r) := by
  cases op with
  | add k =>
    simp only [decision] at h
    split at h <;> cases h
    rename_i hk
    exact apply_add_of_mem (hmem.mpr hk)
  | remove k =>
    simp only [decision] at h
    split at h <;> cases h
    rename_i hk
    exact apply_remove_of_notMem (mt hmem.mp hk)
  | contains k =>
    cases h
    change k ∈ S ↔ key = k at hmem
    show (S, decide (k ∈ S)) = (S, decide (key = k))
    simp only [hmem]

theorem decision_remove {k : Int} {r : Bool} (h : decision (.remove k) key = some r) : r = false := by
  simp only [decision] at h
  split at h <;> cases h
  rfl

theorem decision_none (h : decision op key = none) :
    (op = .add op.key ∧ key ≠ op.key) ∨ (op = .remove op.key ∧ key = op.key) := by
  cases op with
  | add k =>
    simp only [decision] at h
    split at h <;> cases h
    rename_i hk
    exact Or.inl ⟨rfl, hk⟩
  | remove k =>
    simp only [decision] at h
    split at h <;> cases h
    rename_i hk
    exact Or.inr ⟨rfl, not_not.mp hk⟩
  | contains k => cases h

end

/-! ## The threads -/

section
variable {τ : Type} (holds has : τ → Nat → Prop) (place fit : τ → Prop) (off : Nat → Prop)

/-- Every thread is at its place and ready, the owner of a mutex is the thread that holds it, and
what belongs to a thread is allocated, off the list, and belongs to no other. -/
structure Threads (s : State τ) : Prop where
  placed : ∀ t, place (s.thread t)
  ready : ∀ t, fit (s.thread t)
  owner : Owned holds s.owner s.thread
  owns : ∀ t x, has (s.thread t) x → s.live x = true ∧ off x
  owns_inj : Exclusive has s.thread

variable {holds has place fit off} {place' fit' : τ → Prop} {off' : Nat → Prop} {s s' : State τ}
  {t : Nat} {l : τ}

/-- An address that `malloc` may return is none of those in use. -/
theorem State.ne_of_live {x y : Nat} (hx : s.live x = false) (hy : s.live y = true) : y ≠ x := by
  rintro rfl
  rw [hx] at hy
  cases hy

namespace Threads

/-- Nothing is held at first, and nothing belongs to a thread. -/
theorem start (hfree : ∀ x, s.owner x = none) (hholds : ∀ t x, ¬holds (s.thread t) x)
    (hnone : ∀ t x, ¬has (s.thread t) x) (hplace : ∀ t, place (s.thread t))
    (hfit : ∀ t, fit (s.thread t)) : Threads holds has place fit off s where
  placed := hplace
  ready := hfit
  owner x t := iff_of_false (by rw [hfree x]; intro hc; cases hc) (hholds t x)
  owns t x hx := absurd hx (hnone t x)
  owns_inj t _ x hx := absurd hx (hnone t x)

/-- What another thread holds is not what this one holds. -/
theorem held_ne (h : Threads holds has place fit off s) {u x y : Nat} (hu : u ≠ t)
    (hx : holds (s.thread u) x) (hy : holds (s.thread t) y) : x ≠ y := by
  rintro rfl
  exact hu (h.owner.inj hx hy)

/-- A step of thread `t`. -/
theorem move (h : Threads holds has place fit off s)
    (hthread : s'.thread = Function.update s.thread t l)
    (hplace : place' l) (hplaces : ∀ u, u ≠ t → place' (s.thread u))
    (hfit : fit' l) (hfits : ∀ u, u ≠ t → fit' (s.thread u))
    (howner : Owned holds s'.owner (Function.update s.thread t l))
    (hown : ∀ x, has l x → s'.live x = true ∧ off' x)
    (howns : ∀ u, u ≠ t → ∀ x, has (s.thread u) x → s'.live x = true ∧ off' x)
    (hnew : ∀ x u, has l x → has (s.thread u) x → u = t) :
    Threads holds has place' fit' off' s' := by
  refine ⟨?_, ?_, ?_, ?_, ?_⟩
  all_goals rw [hthread]
  · exact forall_update (P := fun _ l => place' l) hplace hplaces
  · exact forall_update (P := fun _ l => fit' l) hfit hfits
  · exact howner
  · exact forall_update (P := fun _ l => ∀ x, has l x → s'.live x = true ∧ off' x) hown howns
  · exact h.owns_inj.update hnew

/-- A step that changes no node. -/
theorem quiet (h : Threads holds has place fit off s) {o : Nat → Option Nat}
    {hist : List (Event Op Bool)} (hplace : place l) (hfit : fit l)
    (hown : ∀ x, has l x → has (s.thread t) x)
    (ho : Owned holds o (Function.update s.thread t l)) :
    Threads holds has place fit off { s.setThread t l with owner := o, hist := hist } :=
  h.move rfl hplace (fun u _ => h.placed u) hfit (fun u _ => h.ready u) ho
    (fun x hx => h.owns t x (hown x hx)) (fun u _ => h.owns u)
    fun x u hx hu => h.owns_inj u t x hu (hown x hx)

/-- A call or a return: nothing is held before and after, and nothing belongs to the thread. -/
theorem outside (h : Threads holds has place fit off s) {hist : List (Event Op Bool)}
    (hbefore : ∀ x, ¬holds (s.thread t) x) (hafter : ∀ x, ¬holds l x) (hplace : place l)
    (hfit : fit l) (hnone : ∀ x, ¬has l x) :
    Threads holds has place fit off { s.setThread t l with hist := hist } :=
  h.quiet hplace hfit (fun x hx => absurd hx (hnone x))
    (h.owner.keep fun y => iff_of_false (hafter y) (hbefore y))

/-- `malloc` returns an address that no thread uses, and it belongs to the thread. -/
theorem malloc (h : Threads holds has place fit off s) {x : Nat} {key : Nat → Int}
    {next : Nat → Nat} (hx : s.live x = false)
    (hheld : ∀ u y, holds (s.thread u) y → s.live y = true)
    (hplace : place' l) (hplaces : ∀ u, u ≠ t → place' (s.thread u))
    (hfit : fit' l) (hfits : ∀ u, u ≠ t → fit' (s.thread u))
    (hl : ∀ y, holds l y ↔ holds (s.thread t) y) (hoff : off x) (hhas : ∀ y, has l y → y = x) :
    Threads holds has place' fit' off { s.setThread t l with
      key := key
      next := next
      owner := Function.update s.owner x none
      live := Function.update s.live x true } := by
  have hne : ∀ y, s.live y = true → y ≠ x := fun _ => State.ne_of_live hx
  have hsame : Function.update s.owner x none = s.owner := by
    rw [← h.owner.free fun u hu => hne x (hheld u x hu) rfl, Function.update_eq_self]
  refine h.move rfl hplace hplaces hfit hfits ?_ (fun y hy => ?_) (fun u _ y hy => ?_)
    fun y u hy hu => absurd (hhas y hy) (hne y (h.owns u y hu).1)
  · show Owned holds (Function.update s.owner x none) _
    rw [hsame]
    exact h.owner.keep hl
  · rw [hhas y hy]
    exact ⟨Function.update_self .., hoff⟩
  · obtain ⟨h1, h2⟩ := h.owns u y hy
    refine ⟨?_, h2⟩
    show Function.update s.live x true y = true
    rw [Function.update_of_ne (hne y h1)]
    exact h1

end Threads

/-! ## No deadlock -/

/-- A mutex that nobody has can be taken. -/
theorem State.exists_lock {a : Nat} (h : s.owner a = none) (t : Nat) (l : τ) :
    ∃ s', s.lock t a l = some s' :=
  ⟨_, if_pos h⟩

variable {wants : τ → Option Nat} {rank : Nat → Int} {bound : Int} {idle : τ → Prop}

open Relation in
/-- If the mutexes are taken in ascending order, no threads wait for each other in a cycle; and if a
thread is in an operation, then one that is in an operation waits for nobody, and can go on. -/
theorem deadlock_free (h : LockOrder wants holds s.thread rank bound)
    (ho : Owned holds s.owner s.thread) (hidle : ∀ l x, holds l x → ¬idle l) {goes : Nat → Prop}
    (hgoes : ∀ t, ¬idle (s.thread t) → (∀ x, wants (s.thread t) = some x → s.owner x = none) →
      goes t) :
    (∀ t, ¬TransGen (WaitsFor wants s.owner s.thread) t t) ∧
    ∀ t, ¬idle (s.thread t) → ∃ u, ¬idle (s.thread u) ∧
      (∀ v, ¬WaitsFor wants s.owner s.thread u v) ∧ goes u := by
  refine ⟨h.acyclic ho, fun t ht => ?_⟩
  obtain ⟨u, hu, hfree⟩ := h.exists_free ho t
  have hu' : ¬idle (s.thread u) := by
    rcases hu with rfl | ⟨x, hx⟩
    · exact ht
    · exact hidle _ x hx
  refine ⟨u, hu', hfree, hgoes u hu' fun x hx => ?_⟩
  rw [Option.eq_none_iff_forall_ne_some]
  exact fun v hv => hfree v ⟨x, hx, hv⟩

end

end MulticorePrac.ListSet
