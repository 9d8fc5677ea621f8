import MulticorePrac.ListSet.Sentinels
import MulticorePrac.Lib.Machine
import MulticorePrac.Lib.Threads
import Mathlib.Data.List.Sort

/-!
# Lab11: the coarse-grained list under several threads (`coarse_grained.cpp`)

The threads work off their lists of operations.  Everything that touches the list is done
under `g_mutex`, so the part of an operation under the mutex is one step; `malloc` before it
and `free` after it are steps of their own, and other threads may come in between.

When no two threads use the same key, each thread only ever sees its own keys: a call
returns what it returns when the thread is alone (`coarse_partitioned`), and all schedules
end with the same list.
-/

namespace MulticorePrac.ListSet.Coarse

/-- Where a thread is in its operation: before it, between `malloc` and the mutex, or between the
mutex and `free`. -/
inductive Pc
  | start
  | ready (node : Nat)
  | free (node : Nat)
  deriving DecidableEq, Repr

/-- A thread with the operations it has done and their results, and those it is to do. -/
structure Thread where
  pc : Pc
  done : List Op
  results : List Bool
  todo : List Op
  deriving DecidableEq, Repr

structure St where
  heap : Heap
  thread : Nat → Thread
  fault : Option Fault

inductive Act
  | malloc (t addr junk : Nat)
  | critical (t rounds : Nat)
  | free (t : Nat)
  deriving DecidableEq, Repr

def St.set (s : St) (t : Nat) (h : Heap) (l : Thread) : St :=
  { s with heap := h, thread := Function.update s.thread t l }

/-- The operation `op` returns `r`, with the operations `rest` still to do. -/
def Thread.finish (l : Thread) (op : Op) (r : Bool) (rest : List Op) : Thread :=
  ⟨.start, l.done ++ [op], l.results ++ [r], rest⟩

/-- A loop that has not ended is no step; another fault ends the program. -/
def St.outcome {α : Type} (s : St) (x : Except Fault α) (next : α → St) : Option St :=
  match x with
  | .ok a => some (next a)
  | .error .spins => none
  | .error f => some { s with fault := some f }

/-- The part of the operation under `g_mutex`. -/
def criticalStep (s : St) (t rounds : Nat) : Option St :=
  let l := s.thread t
  match l.pc, l.todo with
  | .ready node, .add key :: rest =>
    s.outcome (addSection rounds s.heap node key) fun x =>
      s.set t x.1 (l.finish (.add key) x.2 rest)
  | .start, .remove key :: rest =>
    s.outcome (removeSection rounds s.heap key) fun x =>
      match x.2 with
      | none => s.set t x.1 (l.finish (.remove key) false rest)
      | some curr => s.set t x.1 { l with pc := .free curr }
  | .start, .contains key :: rest =>
    s.outcome (containsSection rounds s.heap key) fun r =>
      s.set t s.heap (l.finish (.contains key) r rest)
  | _, _ => none

def mallocStep (s : St) (t addr junk : Nat) : Option St :=
  let l := s.thread t
  match l.pc, l.todo with
  | .start, .add key :: _ =>
    match s.heap.malloc addr junk key with
    | .ok h => some (s.set t h { l with pc := .ready addr })
    | .error _ => none
  | _, _ => none

def freeStep (s : St) (t : Nat) : Option St :=
  let l := s.thread t
  match l.pc, l.todo with
  | .free node, op :: rest => some (s.set t (s.heap.free node) (l.finish op true rest))
  | _, _ => none

def step (s : St) : Act → Option St
  | .malloc t addr junk => mallocStep s t addr junk
  | .critical t rounds => criticalStep s t rounds
  | .free t => freeStep s t

/-- `work t` is what `g_thread_work` has for thread `t`; a thread that does not exist has no work. -/
def machine (work : Nat → List Op) : Machine St Act where
  init := ⟨Heap.init, fun t => ⟨.start, [], [], work t⟩, none⟩
  step := step

/-- All threads have done their work. -/
def St.Complete (s : St) : Prop := ∀ t, (s.thread t).todo = []

/-- No key is used by two different threads. -/
def Partitioned (work : Nat → List Op) : Prop :=
  ∀ t u, t ≠ u → ∀ op ∈ work t, ∀ op' ∈ work u, op.key ≠ op'.key

/-! ## A thread alone -/

/-- A sequence of calls, with the results. -/
def runCalls (rounds : Nat) : Heap → List Call → Except Fault (Heap × List Bool)
  | h, [] => .ok (h, [])
  | h, c :: cs => do
    let (h, r) ← exec rounds h c
    let (h, rs) ← runCalls rounds h cs
    .ok (h, r :: rs)

/-- A thread that does the operations alone on an empty list gets the results `rs` and leaves the
keys `ks`, wherever `malloc` puts the nodes. -/
def Alone (ops : List Op) (rs : List Bool) (ks : List Int) : Prop :=
  (∃ cs, cs.map Call.op = ops ∧ AllocOk exec Heap.init cs) ∧
  ∀ cs, cs.map Call.op = ops → AllocOk exec Heap.init cs →
    ∃ h, Returns (fun n => runCalls n Heap.init cs) (h, rs) ∧ Returns (fun n => h.keys n) ks

theorem runCalls_returns : ∀ (cs : List Call) (h : Heap) (p : List Nat) (S : Finset Int),
    Intact h p S → (∀ c ∈ cs, c.op.InRange) → AllocOk exec h cs → ∃ h' p',
      Returns (fun n => runCalls n h cs) (h', (setObject.run S (cs.map Call.op)).2) ∧
      Intact h' p' (setObject.run S (cs.map Call.op)).1 := by
  intro cs
  induction cs with
  | nil =>
    intro h p S hi _ _
    exact ⟨h, p, Returns.of_eq fun _ => rfl, hi⟩
  | cons c cs ih =>
    intro h p S hi hr halloc
    obtain ⟨h', p', hret, hi', -⟩ := finds.inRange hi (hr c List.mem_cons_self) halloc.1
    obtain ⟨h'', p'', hret', hi''⟩ := ih h' p' _ hi' (fun d hd => hr d (List.mem_cons_of_mem _ hd))
      (halloc.2 h' _ hret)
    refine ⟨h'', p'', ?_, hi''⟩
    exact hret.bind (g := fun x n => runCalls n x.1 cs >>= fun y => .ok (y.1, x.2 :: y.2))
      (hret'.bind (g := fun y _ => .ok (y.1, _ :: y.2)) (Returns.of_eq fun _ => rfl))

/-- There is always an address that is not allocated. -/
theorem exists_allocOk : ∀ (ops : List Op) (h : Heap) (p : List Nat) (S : Finset Int) (bound : Nat),
    Intact h p S → (∀ op ∈ ops, op.InRange) → (∀ x, bound ≤ x → h.live x = false) →
    ∃ cs, cs.map Call.op = ops ∧ AllocOk exec h cs := by
  intro ops
  induction ops with
  | nil =>
    intro h p S bound _ _ _
    exact ⟨[], rfl, trivial⟩
  | cons op ops ih =>
    intro h p S bound hi hr hbound
    have halloc : Allocates h ⟨op, bound + 1, 0⟩ :=
      fun _ => ⟨hbound _ (Nat.le_succ _), Nat.succ_ne_zero _⟩
    obtain ⟨h', p', hret, hi', hlive⟩ := finds.inRange hi (hr op List.mem_cons_self) halloc
    have hbound' : ∀ x, bound + 2 ≤ x → h'.live x = false := by
      intro x hx
      rw [← Bool.not_eq_true]
      intro hc
      rcases hlive x hc with hc | hc
      · rw [hbound x (by omega)] at hc
        cases hc
      · have : x = bound + 1 := hc
        omega
    obtain ⟨cs, hcs, hok⟩ := ih h' p' _ (bound + 2) hi'
      (fun d hd => hr d (List.mem_cons_of_mem _ hd)) hbound'
    refine ⟨⟨op, bound + 1, 0⟩ :: cs, by rw [List.map_cons, hcs], halloc, fun g r hg => ?_⟩
    cases hret.inj hg
    exact hok

/-- Two strictly ascending lists with the same keys are the same. -/
theorem eq_of_ascending {ks ks' : List Int} (h : ks.Pairwise (· < ·)) (h' : ks'.Pairwise (· < ·))
    (hmem : ∀ k, k ∈ ks ↔ k ∈ ks') : ks = ks' := by
  have hnd : ∀ {l : List Int}, l.Pairwise (· < ·) → l.Nodup := fun hl => hl.imp ne_of_lt
  have hperm : ks.Perm ks' := (List.perm_ext_iff_of_nodup (hnd h) (hnd h')).mpr hmem
  exact hperm.eq_of_pairwise (fun a b _ _ h1 h2 => absurd h1 (lt_asymm h2)) h h'

/-- Alone a thread works on a set. -/
theorem alone_run {ops : List Op} (hr : ∀ op ∈ ops, op.InRange) :
    ∃ ks, Alone ops (setObject.run ∅ ops).2 ks ∧ ∀ k, k ∈ ks ↔ k ∈ (setObject.run ∅ ops).1 := by
  obtain ⟨cs, hcs, hok⟩ := exists_allocOk ops Heap.init _ _ 3 intact_init hr (by
    intro x hx
    show Function.update (Function.update (fun _ => false) HEAD true) TAIL true x = false
    rw [Function.update_of_ne (by unfold TAIL; omega), Function.update_of_ne (by unfold HEAD; omega)])
  have hall : ∀ cs, cs.map Call.op = ops → AllocOk exec Heap.init cs → ∃ h ks,
      Returns (fun n => runCalls n Heap.init cs) (h, (setObject.run ∅ ops).2) ∧
      Returns (fun n => h.keys n) ks ∧ ks.Pairwise (· < ·) ∧
      ∀ k, k ∈ ks ↔ k ∈ (setObject.run ∅ ops).1 := by
    rintro cs rfl hok
    obtain ⟨h, p, hret, hi⟩ := runCalls_returns cs Heap.init _ _ intact_init
      (fun c hc => hr c.op (List.mem_map_of_mem hc)) hok
    obtain ⟨ks, hks, hasc, hmem⟩ := hi.keys_returns
    exact ⟨h, ks, hret, hks, hasc, hmem⟩
  obtain ⟨-, ks, -, -, hasc, hmem⟩ := hall cs hcs hok
  refine ⟨ks, ⟨⟨cs, hcs, hok⟩, fun cs' hcs' hok' => ?_⟩, hmem⟩
  obtain ⟨h', ks', hret', hks', hasc', hmem'⟩ := hall cs' hcs' hok'
  rw [eq_of_ascending hasc hasc' fun k => (hmem k).trans (hmem' k).symm]
  exact ⟨h', hret', hks'⟩

theorem Alone.inj {ops : List Op} {rs rs' : List Bool} {ks ks' : List Int} (h : Alone ops rs ks)
    (h' : Alone ops rs' ks') : rs = rs' ∧ ks = ks' := by
  obtain ⟨⟨cs, hcs, hok⟩, hall⟩ := h
  obtain ⟨g, hret, hks⟩ := hall cs hcs hok
  obtain ⟨g', hret', hks'⟩ := h'.2 cs hcs hok
  cases hret.inj hret'
  exact ⟨rfl, hks.inj hks'⟩

/-! ## Sets with different keys -/

section
variable {S T : Finset Int} {op : Op} {k : Int}

/-- An operation leaves the other keys alone. -/
theorem mem_apply_of_ne (hk : k ≠ op.key) : k ∈ (setObject.apply S op).1 ↔ k ∈ S := by
  cases op with
  | add j =>
    have hk : k ≠ j := hk
    show k ∈ insert j S ↔ _
    simp [hk]
  | remove j =>
    have hk : k ≠ j := hk
    show k ∈ S.erase j ↔ _
    simp [hk]
  | contains j => exact Iff.rfl

/-- What an operation returns, and whether its key is in the set then, depends only on whether the
key was in the set. -/
theorem apply_congr (h : op.key ∈ S ↔ op.key ∈ T) :
    (setObject.apply S op).2 = (setObject.apply T op).2 ∧
      (op.key ∈ (setObject.apply S op).1 ↔ op.key ∈ (setObject.apply T op).1) := by
  cases op with
  | add j => exact ⟨decide_eq_decide.mpr (not_congr h), by simp [setObject, Op.key]⟩
  | remove j => exact ⟨decide_eq_decide.mpr h, by simp [setObject, Op.key]⟩
  | contains j => exact ⟨decide_eq_decide.mpr h, h⟩

theorem key_of_mem_run {ops : List Op} (h : k ∈ (setObject.run ∅ ops).1) :
    ∃ op ∈ ops, op.key = k := by
  induction ops using List.reverseRecOn with
  | nil => cases h
  | append_singleton ops op ih =>
    rw [Object.run_concat] at h
    by_cases hk : k = op.key
    · exact ⟨op, by simp, hk.symm⟩
    · obtain ⟨d, hd, hk⟩ := ih ((mem_apply_of_ne hk).mp h)
      exact ⟨d, by simp [hd], hk⟩

end

/-! ## Every interleaving -/

/-- The operations whose part under the mutex is done. -/
def Thread.committed (l : Thread) : List Op :=
  match l.pc with
  | .free _ => l.done ++ l.todo.take 1
  | _ => l.done

/-- The keys that the thread would have in the list if it were alone. -/
def Thread.keys (l : Thread) : Finset Int := (setObject.run ∅ l.committed).1

/-- The nodes that belong to the thread alone. -/
def Thread.Owns (l : Thread) (x : Nat) : Prop := l.pc = .ready x ∨ l.pc = .free x

structure Good (work : List Op) (h : Heap) (l : Thread) : Prop where
  work : work = l.done ++ l.todo
  results : l.results = (setObject.run ∅ l.done).2
  ready : ∀ x, l.pc = .ready x → h.locked x = false ∧ ∃ k rest, l.todo = .add k :: rest ∧ h.key x = k
  free : ∀ x, l.pc = .free x →
    ∃ k rest, l.todo = .remove k :: rest ∧ k ∈ (setObject.run ∅ l.done).1

structure Inv (work : Nat → List Op) (s : St) (p : List Nat) (S : Finset Int) : Prop where
  intact : Intact s.heap p S
  good : ∀ t, Good (work t) s.heap (s.thread t)
  keys : ∀ k, k ∈ S ↔ ∃ t, k ∈ (s.thread t).keys
  owns : ∀ t x, (s.thread t).Owns x → s.heap.live x = true ∧ x ∉ p
  owns_inj : Exclusive Thread.Owns s.thread
  fault : s.fault = none

section
variable {work : Nat → List Op} {s s' : St} {p : List Nat} {S : Finset Int} {t : Nat}

theorem Good.committed_subset {ops : List Op} {h : Heap} {l : Thread} (hg : Good ops h l) :
    ∀ op ∈ l.committed, op ∈ ops := by
  intro op hop
  unfold Thread.committed at hop
  rw [hg.work]
  split at hop
  · rcases List.mem_append.mp hop with hop | hop
    · exact List.mem_append_left _ hop
    · exact List.mem_append_right _ (List.mem_of_mem_take hop)
  · exact List.mem_append_left _ hop

/-- A thread sees its own keys only. -/
theorem Inv.mem_iff (hpart : Partitioned work) (h : Inv work s p S) {op : Op} (hop : op ∈ work t) :
    op.key ∈ S ↔ op.key ∈ (s.thread t).keys := by
  rw [h.keys]
  refine ⟨fun ⟨u, hu⟩ => ?_, fun hk => ⟨t, hk⟩⟩
  by_cases hut : u = t
  · rwa [← hut]
  · obtain ⟨d, hd, hk⟩ := key_of_mem_run hu
    exact absurd hk (hpart u t hut d ((h.good u).committed_subset d hd) op hop)

/-- The keys of all threads after thread `t` has done one more operation. -/
theorem Inv.keys_update (hpart : Partitioned work) (h : Inv work s p S) {op : Op}
    (hop : op ∈ work t) {l : Thread} (hl : l.keys = (setObject.apply (s.thread t).keys op).1)
    (k : Int) : k ∈ (setObject.apply S op).1 ↔ ∃ u, k ∈ (Function.update s.thread t l u).keys := by
  have hsplit : (∃ u, k ∈ (Function.update s.thread t l u).keys) ↔
      k ∈ l.keys ∨ ∃ u, u ≠ t ∧ k ∈ (s.thread u).keys := by
    constructor
    · rintro ⟨u, hu⟩
      by_cases hut : u = t
      · rw [hut, Function.update_self] at hu
        exact Or.inl hu
      · rw [Function.update_of_ne hut] at hu
        exact Or.inr ⟨u, hut, hu⟩
    · rintro (hk | ⟨u, hut, hu⟩)
      · exact ⟨t, by rw [Function.update_self]; exact hk⟩
      · exact ⟨u, by rw [Function.update_of_ne hut]; exact hu⟩
  rw [hsplit, hl]
  by_cases hk : k = op.key
  · -- the other threads do not have the key
    have hno : ¬∃ u, u ≠ t ∧ k ∈ (s.thread u).keys := by
      rintro ⟨u, hut, hu⟩
      obtain ⟨d, hd, hdk⟩ := key_of_mem_run hu
      exact hpart u t hut d ((h.good u).committed_subset d hd) op hop (hdk.trans hk)
    rw [or_iff_left hno, hk]
    exact (apply_congr (h.mem_iff hpart hop)).2
  · rw [mem_apply_of_ne hk, mem_apply_of_ne hk, h.keys]
    constructor
    · rintro ⟨u, hu⟩
      by_cases hut : u = t
      · exact Or.inl (hut ▸ hu)
      · exact Or.inr ⟨u, hut, hu⟩
    · rintro (hk | ⟨u, -, hu⟩)
      · exact ⟨t, hk⟩
      · exact ⟨u, hu⟩

/-- What a thread relies on is in its own node. -/
theorem Good.congr {ops : List Op} {h h' : Heap} {l : Thread} (hg : Good ops h l)
    (hkey : ∀ x, l.Owns x → h'.key x = h.key x ∧ h'.locked x = h.locked x) : Good ops h' l := by
  refine ⟨hg.work, hg.results, fun x hx => ?_, hg.free⟩
  obtain ⟨hlocked, k, rest, htodo, hk⟩ := hg.ready x hx
  obtain ⟨h1, h2⟩ := hkey x (Or.inl hx)
  exact ⟨h2.trans hlocked, k, rest, htodo, h1.trans hk⟩

/-- An operation returns. -/
theorem Good.finish {ops : List Op} {h h' : Heap} {l : Thread} (hg : Good ops h l) {op : Op}
    {rest : List Op} (htodo : l.todo = op :: rest) {r : Bool}
    (hr : r = (setObject.apply (setObject.run ∅ l.done).1 op).2) :
    Good ops h' (l.finish op r rest) := by
  refine ⟨?_, ?_, fun x hx => (by cases hx), fun x hx => (by cases hx)⟩
  · show ops = (l.done ++ [op]) ++ rest
    rw [hg.work, htodo, List.append_assoc]
    rfl
  · show l.results ++ [r] = (setObject.run ∅ (l.done ++ [op])).2
    rw [Object.run_concat, hg.results, hr]

theorem keys_finish (l : Thread) (op : Op) (r : Bool) (rest : List Op) :
    (l.finish op r rest).keys = (setObject.apply (setObject.run ∅ l.done).1 op).1 := by
  show (setObject.run ∅ (l.done ++ [op])).1 = _
  rw [Object.run_concat]

theorem not_owns_finish (l : Thread) (op : Op) (r : Bool) (rest : List Op) (x : Nat) :
    ¬(l.finish op r rest).Owns x := by
  rintro (hc | hc) <;> cases hc

/-- A step of thread `t` that takes the list from `S` to `S'`. -/
theorem Inv.update (h : Inv work s p S) {g : Heap} {l : Thread} {p' : List Nat} {S' : Finset Int}
    (hi : Intact g p' S') (hgood : Good (work t) g l)
    (hkeys : ∀ k, k ∈ S' ↔ ∃ u, k ∈ (Function.update s.thread t l u).keys)
    (howns : ∀ x, l.Owns x → g.live x = true ∧ x ∉ p')
    (hinj : ∀ x u, l.Owns x → (s.thread u).Owns x → u = t)
    (hother : ∀ u x, u ≠ t → (s.thread u).Owns x → g.live x = true ∧ x ∉ p' ∧
      g.key x = s.heap.key x ∧ g.locked x = s.heap.locked x) :
    Inv work (s.set t g l) p' S' where
  intact := hi
  good := forall_update (P := fun u l => Good (work u) g l) hgood fun u hu =>
    (h.good u).congr fun x hx => (hother u x hu hx).2.2
  keys := hkeys
  owns := forall_update (P := fun _ (l : Thread) => ∀ x, l.Owns x → g.live x = true ∧ x ∉ p') howns
    fun u hu x hx => ⟨(hother u x hu hx).1, (hother u x hu hx).2.1⟩
  owns_inj := h.owns_inj.update hinj
  fault := h.fault

theorem inv_malloc (h : Inv work s p S) {addr junk : Nat} {k : Int} {rest : List Op}
    (hpc : (s.thread t).pc = .start) (htodo : (s.thread t).todo = .add k :: rest)
    (hlive : s.heap.live addr = false) (hnull : addr ≠ NULL) :
    Inv work (s.set t (s.heap.put addr junk k) { s.thread t with pc := .ready addr }) p S := by
  have hgood := h.good t
  have hne : ∀ u x, (s.thread u).Owns x → x ≠ addr := by
    intro u x hx he
    have := (h.owns u x hx).1
    rw [he, hlive] at this
    cases this
  have howns : ∀ x, Thread.Owns { s.thread t with pc := .ready addr } x → x = addr := by
    rintro x (hx | hx)
    · exact (Pc.ready.inj hx).symm
    · cases hx
  have hkeys : ∀ u, (Function.update s.thread t { s.thread t with pc := .ready addr } u).keys =
      (s.thread u).keys := by
    intro u
    by_cases hut : u = t
    · rw [hut, Function.update_self]
      unfold Thread.keys Thread.committed
      rw [hpc]
    · rw [Function.update_of_ne hut]
  refine h.update (h.intact.put hlive hnull junk) ⟨hgood.work, hgood.results, fun x hx => ?_,
    fun x hx => (by cases hx)⟩ (fun j => ?_) (fun x hx => ?_) (fun x u hx hu => ?_)
    fun u x _ hx => ?_
  · obtain rfl : x = addr := howns x (Or.inl hx)
    exact ⟨Function.update_self .., k, rest, htodo, Function.update_self ..⟩
  · simp only [hkeys]
    exact h.keys j
  · obtain rfl : x = addr := howns x hx
    exact ⟨Function.update_self .., h.intact.notMem_of_free hlive⟩
  · exact absurd (howns x hx) (hne u x hu)
  · have hxa := hne u x hx
    exact ⟨(Function.update_of_ne hxa _ _).trans (h.owns u x hx).1, (h.owns u x hx).2,
      Function.update_of_ne hxa _ _, Function.update_of_ne hxa _ _⟩

theorem inv_free (h : Inv work s p S) {node : Nat} {op : Op} {rest : List Op}
    (hpc : (s.thread t).pc = .free node) (htodo : (s.thread t).todo = op :: rest) :
    Inv work (s.set t (s.heap.free node) ((s.thread t).finish op true rest)) p S := by
  have hgood := h.good t
  obtain ⟨k, rest', htodo', hk⟩ := hgood.free node hpc
  rw [htodo'] at htodo
  cases htodo
  have hres : true = (setObject.apply (setObject.run ∅ (s.thread t).done).1 (.remove k)).2 := by
    rw [apply_remove_of_mem hk]
  have hkeys : ∀ u, (Function.update s.thread t ((s.thread t).finish (.remove k) true rest) u).keys
      = (s.thread u).keys := by
    intro u
    by_cases hut : u = t
    · rw [hut, Function.update_self]
      unfold Thread.keys Thread.committed Thread.finish
      rw [hpc, htodo']
      rfl
    · rw [Function.update_of_ne hut]
  refine h.update (h.intact.free (h.owns t node (Or.inr hpc)).2) (hgood.finish htodo' hres)
    (fun j => ?_) (fun x hx => absurd hx (not_owns_finish _ _ _ _ x))
    (fun x u hx => absurd hx (not_owns_finish _ _ _ _ x)) fun u x hut hx => ?_
  · simp only [hkeys]
    exact h.keys j
  · have hxn : x ≠ node := by
      rintro rfl
      exact hut (h.owns_inj u t x hx (Or.inr hpc))
    exact ⟨(Function.update_of_ne hxn _ _).trans (h.owns u x hx).1, (h.owns u x hx).2, rfl, rfl⟩

/-- Where no node waits to be freed, the keys of a thread are those of what it has done. -/
theorem keys_eq {l : Thread} (hpc : ∀ x, l.pc ≠ .free x) : l.keys = (setObject.run ∅ l.done).1 := by
  unfold Thread.keys Thread.committed
  split
  · rename_i x hx
    exact absurd hx (hpc x)
  · rfl

/-- The operation that a thread is to do next. -/
theorem Good.mem_work {ops : List Op} {g : Heap} {l : Thread} (hg : Good ops g l) {op : Op}
    {rest : List Op} (htodo : l.todo = op :: rest) : op ∈ ops := by
  rw [hg.work, htodo]
  simp

/-- An operation takes effect and returns. -/
theorem Inv.returns (hpart : Partitioned work) (h : Inv work s p S) {op : Op} {rest : List Op}
    (htodo : (s.thread t).todo = op :: rest) (hpc : ∀ x, (s.thread t).pc ≠ .free x) {g : Heap}
    {r : Bool} {p' : List Nat} (hi : Intact g p' (setObject.apply S op).1)
    (hr : r = (setObject.apply S op).2)
    (hother : ∀ u x, u ≠ t → (s.thread u).Owns x → g.live x = true ∧ x ∉ p' ∧
      g.key x = s.heap.key x ∧ g.locked x = s.heap.locked x) :
    Inv work (s.set t g ((s.thread t).finish op r rest)) p' (setObject.apply S op).1 := by
  have hop := (h.good t).mem_work htodo
  have hmem := h.mem_iff hpart hop
  rw [keys_eq hpc] at hmem
  refine h.update hi ((h.good t).finish htodo (hr.trans (apply_congr hmem).1))
    (h.keys_update hpart hop ?_) (fun x hx => absurd hx (not_owns_finish _ _ _ _ x))
    (fun x u hx => absurd hx (not_owns_finish _ _ _ _ x)) hother
  rw [keys_finish, keys_eq hpc]

theorem inv_add (hpart : Partitioned work) (h : Inv work s p S) {k : Int} {rest : List Op}
    {node a b : Nat} (hpc : (s.thread t).pc = .ready node)
    (htodo : (s.thread t).todo = .add k :: rest) (hr : (Op.add k).InRange)
    (hat : At s.heap p k a b) :
    ∃ p' S', Inv work (s.set t (addAt s.heap a b node k).1
      ((s.thread t).finish (.add k) (addAt s.heap a b node k).2 rest)) p' S' := by
  have howned : (s.thread t).Owns node := Or.inl hpc
  obtain ⟨hlocked, k', rest', htodo', hkey⟩ := (h.good t).ready node hpc
  rw [htodo] at htodo'
  cases htodo'
  obtain ⟨hres, p', hi, hsub⟩ := intact_addAt h.intact hat (h.owns t node howned).2
    (h.owns t node howned).1 hlocked hkey hr.1 hr.2
  refine ⟨p', _, h.returns hpart htodo (fun x hx => ?_) hi hres fun u x hut hx => ?_⟩
  · rw [hpc] at hx
    cases hx
  · have hframe : (addAt s.heap a b node k).1.key = s.heap.key ∧
        (addAt s.heap a b node k).1.locked = s.heap.locked := by
      unfold addAt
      split <;> exact ⟨rfl, rfl⟩
    rw [live_addAt, hframe.1, hframe.2]
    refine ⟨(h.owns u x hx).1, fun hc => ?_, rfl, rfl⟩
    rcases hsub x hc with rfl | hc
    · exact hut (h.owns_inj u t x hx howned)
    · exact (h.owns u x hx).2 hc

theorem inv_contains (hpart : Partitioned work) (h : Inv work s p S) {k : Int} {rest : List Op}
    {a b : Nat} (hpc : (s.thread t).pc = .start)
    (htodo : (s.thread t).todo = .contains k :: rest) (hr : (Op.contains k).InRange)
    (hat : At s.heap p k a b) :
    ∃ p' S', Inv work (s.set t s.heap
      ((s.thread t).finish (.contains k) (decide (s.heap.key b = k)) rest)) p' S' := by
  have hfound := h.intact.path.mem_iff hat.follows hat.below hat.above hr.1 hr.2
  have hres : decide (s.heap.key b = k) = (setObject.apply S (.contains k)).2 :=
    decide_eq_decide.mpr hfound.symm
  refine ⟨p, _, h.returns hpart htodo (fun x hx => ?_) h.intact hres fun u x _ hx => ?_⟩
  · rw [hpc] at hx
    cases hx
  · exact ⟨(h.owns u x hx).1, (h.owns u x hx).2, rfl, rfl⟩

theorem inv_remove_none (hpart : Partitioned work) (h : Inv work s p S) {k : Int}
    {rest : List Op} {a b : Nat} (hpc : (s.thread t).pc = .start)
    (htodo : (s.thread t).todo = .remove k :: rest) (hr : (Op.remove k).InRange)
    (hat : At s.heap p k a b) (hkey : s.heap.key b ≠ k) :
    ∃ p' S', Inv work (s.set t s.heap ((s.thread t).finish (.remove k) false rest)) p' S' := by
  have hfound := h.intact.path.mem_iff hat.follows hat.below hat.above hr.1 hr.2
  have hno : k ∉ S := fun hc => hkey (hfound.mp hc)
  refine ⟨p, _, h.returns hpart htodo (fun x hx => ?_) ?_ ?_ fun u x _ hx => ?_⟩
  · rw [hpc] at hx
    cases hx
  · rw [apply_remove_of_notMem hno]
    exact h.intact
  · rw [apply_remove_of_notMem hno]
  · exact ⟨(h.owns u x hx).1, (h.owns u x hx).2, rfl, rfl⟩

theorem inv_remove_some (hpart : Partitioned work) (h : Inv work s p S) {k : Int}
    {rest : List Op} {a b : Nat} (hpc : (s.thread t).pc = .start)
    (htodo : (s.thread t).todo = .remove k :: rest) (hr : (Op.remove k).InRange)
    (hat : At s.heap p k a b) (hkey : s.heap.key b = k) :
    ∃ p' S', Inv work (s.set t (s.heap.setNext a (s.heap.next b))
      { s.thread t with pc := .free b }) p' S' := by
  have hgood := h.good t
  have hop := hgood.mem_work htodo
  have hstart : ∀ x, (s.thread t).pc ≠ .free x := fun x hx => by
    rw [hpc] at hx
    cases hx
  obtain ⟨-, p', hi, hsub, hb⟩ := intact_removeAt false h.intact hat hr.1 hr.2
  have hat' : (removeAt false s.heap a b k).1 = s.heap.setNext a (s.heap.next b) := by
    unfold removeAt
    rw [if_neg (fun hc => hc hkey)]
    rfl
  rw [hat'] at hi
  have hmemS : k ∈ S :=
    (h.intact.path.mem_iff hat.follows hat.below hat.above hr.1 hr.2).mpr hkey
  have hmem : k ∈ (setObject.run ∅ (s.thread t).done).1 := by
    rw [← keys_eq hstart]
    exact (h.mem_iff hpart hop).mp hmemS
  have howns : ∀ x, Thread.Owns { s.thread t with pc := .free b } x → x = b := by
    rintro x (hx | hx)
    · cases hx
    · exact (Pc.free.inj hx).symm
  refine ⟨p', _, h.update hi ⟨hgood.work, hgood.results, fun x hx => (by cases hx),
    fun x _ => ⟨k, rest, htodo, hmem⟩⟩ (h.keys_update hpart hop ?_) (fun x hx => ?_)
    (fun x u hx hu => ?_) fun u x hut hx => ?_⟩
  · rw [keys_eq hstart]
    show (setObject.run ∅ ((s.thread t).done ++ (s.thread t).todo.take 1)).1 = _
    rw [htodo]
    show (setObject.run ∅ ((s.thread t).done ++ [.remove k])).1 = _
    rw [Object.run_concat]
  · obtain rfl : x = b := howns x hx
    exact ⟨h.intact.live x hat.follows.right_mem, hb hkey⟩
  · obtain rfl : x = b := howns x hx
    exact absurd hat.follows.right_mem (h.owns u x hu).2
  · exact ⟨(h.owns u x hx).1, fun hc => (h.owns u x hx).2 (hsub x hc), rfl, rfl⟩

theorem inv_critical (hpart : Partitioned work) (hrange : ∀ t, ∀ op ∈ work t, op.InRange)
    (h : Inv work s p S) {rounds : Nat} (hs : criticalStep s t rounds = some s') :
    ∃ p' S', Inv work s' p' S' := by
  unfold criticalStep at hs
  dsimp only at hs
  split at hs
  · rename_i node k rest hpc htodo
    have hr := hrange t _ ((h.good t).mem_work htodo)
    rcases h.intact.search_at (k := k) hr.1 hr.2.le rounds with hspins | ⟨a, b, hat, hsearch⟩
    · unfold addSection at hs
      rw [hspins] at hs
      cases hs
    · rw [addSection_eq hsearch] at hs
      cases hs
      exact inv_add hpart h hpc htodo hr hat
  · rename_i k rest hpc htodo
    have hr := hrange t _ ((h.good t).mem_work htodo)
    rcases h.intact.search_at (k := k) hr.1 hr.2.le rounds with hspins | ⟨a, b, hat, hsearch⟩
    · unfold removeSection at hs
      rw [hspins] at hs
      cases hs
    · rw [removeSection_eq hsearch] at hs
      by_cases hkey : s.heap.key b = k
      · rw [if_neg (fun hc => hc hkey)] at hs
        cases hs
        exact inv_remove_some hpart h hpc htodo hr hat hkey
      · rw [if_pos hkey] at hs
        cases hs
        exact inv_remove_none hpart h hpc htodo hr hat hkey
  · rename_i k rest hpc htodo
    have hr := hrange t _ ((h.good t).mem_work htodo)
    rcases h.intact.search_at (k := k) hr.1 hr.2.le rounds with hspins | ⟨a, b, hat, hsearch⟩
    · unfold containsSection at hs
      rw [hspins] at hs
      cases hs
    · rw [containsSection_eq hsearch] at hs
      cases hs
      exact inv_contains hpart h hpc htodo hr hat
  · cases hs

theorem inv_step (hpart : Partitioned work) (hrange : ∀ t, ∀ op ∈ work t, op.InRange)
    (h : Inv work s p S) {a : Act} (hs : step s a = some s') : ∃ p' S', Inv work s' p' S' := by
  cases a with
  | malloc t addr junk =>
    simp only [step, mallocStep] at hs
    split at hs
    · rename_i k rest hpc htodo
      unfold Heap.malloc at hs
      by_cases hc : s.heap.live addr = true ∨ addr = NULL
      · rw [if_pos hc] at hs
        cases hs
      · rw [if_neg hc] at hs
        rw [not_or, Bool.not_eq_true] at hc
        cases hs
        exact ⟨p, S, inv_malloc h hpc htodo hc.1 hc.2⟩
    · cases hs
  | critical t rounds => exact inv_critical hpart hrange h hs
  | free t =>
    simp only [step, freeStep] at hs
    split at hs
    · rename_i node op rest hpc htodo
      cases hs
      exact ⟨p, S, inv_free h hpc htodo⟩
    · cases hs

theorem inv_of_reachable (hpart : Partitioned work) (hrange : ∀ t, ∀ op ∈ work t, op.InRange)
    (hs : (machine work).Reachable s) : ∃ p S, Inv work s p S := by
  refine (machine work).invariant (fun s => ∃ p S, Inv work s p S) ?_ ?_ hs
  · have howns : ∀ t x, ¬((machine work).init.thread t).Owns x := by
      rintro t x (hc | hc) <;> cases hc
    refine ⟨_, _, intact_init, fun t => ⟨rfl, rfl, fun x hx => (by cases hx), fun x hx => (by cases hx)⟩,
      fun k => ?_, fun t x hx => absurd hx (howns t x), fun t u x hx => absurd hx (howns t x), rfl⟩
    refine ⟨fun hk => absurd hk (Finset.notMem_empty k), ?_⟩
    rintro ⟨t, ht⟩
    exact absurd ht (Finset.notMem_empty k)
  · rintro s a s' ⟨p, S, h⟩ hstep
    exact inv_step hpart hrange h hstep

/-- In the end all operations of a thread are done. -/
theorem Good.done_eq {ops : List Op} {g : Heap} {l : Thread} (hg : Good ops g l)
    (htodo : l.todo = []) : l.done = ops ∧ l.keys = (setObject.run ∅ ops).1 := by
  have hdone : l.done = ops := by
    rw [hg.work, htodo, List.append_nil]
  refine ⟨hdone, ?_⟩
  rw [keys_eq, hdone]
  intro x hx
  obtain ⟨k, rest, hc, -⟩ := hg.free x hx
  rw [htodo] at hc
  cases hc

/-- The list at the end of a schedule. -/
theorem Inv.keys_complete (h : Inv work s p S) (hc : s.Complete) :
    ∃ ks, Returns (fun n => s.heap.keys n) ks ∧ ks.Pairwise (· < ·) ∧
      ∀ k, k ∈ ks ↔ ∃ t, k ∈ (setObject.run ∅ (work t)).1 := by
  obtain ⟨ks, hret, hasc, hmem⟩ := h.intact.keys_returns
  refine ⟨ks, hret, hasc, fun k => ?_⟩
  rw [hmem, h.keys]
  refine exists_congr fun t => ?_
  rw [((h.good t).done_eq (hc t)).2]

end

/-- When no key is used by two threads, in every interleaving every call returns what it returns
when its thread runs alone; a complete schedule ends with a strictly ascending list of the keys that
the threads leave when they run alone; and so any two complete schedules end with the same list. -/
theorem coarse_partitioned {work : Nat → List Op} (hpart : Partitioned work)
    (hrange : ∀ t, ∀ op ∈ work t, op.InRange) {s : St} (hs : (machine work).Reachable s) :
    s.fault = none ∧
    (∀ t, ∃ rs ks, Alone (work t) rs ks ∧
      (∃ more, rs = (s.thread t).results ++ more) ∧ (s.Complete → rs = (s.thread t).results)) ∧
    (s.Complete → ∃ ks, Returns (fun n => s.heap.keys n) ks ∧ ks.Pairwise (· < ·) ∧
      (∀ k, k ∈ ks ↔ ∃ t rs ks', Alone (work t) rs ks' ∧ k ∈ ks') ∧
      ∀ s', (machine work).Reachable s' → s'.Complete → Returns (fun n => s'.heap.keys n) ks) := by
  obtain ⟨p, S, h⟩ := inv_of_reachable hpart hrange hs
  refine ⟨h.fault, fun t => ?_, fun hc => ?_⟩
  · obtain ⟨ks, halone, -⟩ := alone_run (hrange t)
    have hgood := h.good t
    refine ⟨_, ks, halone, ⟨(setObject.run (setObject.run ∅ (s.thread t).done).1
      (s.thread t).todo).2, ?_⟩, fun hc => ?_⟩
    · rw [hgood.results, hgood.work, Object.run_append]
    · rw [hgood.results, (hgood.done_eq (hc t)).1]
  · obtain ⟨ks, hret, hasc, hmem⟩ := h.keys_complete hc
    refine ⟨ks, hret, hasc, fun k => ?_, fun s' hs' hc' => ?_⟩
    · rw [hmem]
      constructor
      · rintro ⟨t, ht⟩
        obtain ⟨ks', halone, hks'⟩ := alone_run (hrange t)
        exact ⟨t, _, ks', halone, (hks' k).mpr ht⟩
      · rintro ⟨t, rs, ks', halone, hk⟩
        obtain ⟨ks'', halone', hks''⟩ := alone_run (hrange t)
        rw [(halone.inj halone').2, hks''] at hk
        exact ⟨t, hk⟩
    · obtain ⟨p', S', h'⟩ := inv_of_reachable hpart hrange hs'
      obtain ⟨ks', hret', hasc', hmem'⟩ := h'.keys_complete hc'
      rw [eq_of_ascending hasc hasc' fun k => (hmem k).trans (hmem' k).symm]
      exact hret'

/-- Thread 0 adds 7 and removes it, thread 1 adds 3 and asks for it. -/
def twoThreads : Nat → List Op
  | 0 => [.add 7, .remove 7]
  | 1 => [.add 3, .contains 3]
  | _ => []

theorem twoThreads_partitioned : Partitioned twoThreads := by
  intro t u htu op hop op' hop'
  match t, u with
  | 0, 0 => exact absurd rfl htu
  | 1, 1 => exact absurd rfl htu
  | 0, 1 =>
    have hall : ∀ op ∈ twoThreads 0, ∀ op' ∈ twoThreads 1, op.key ≠ op'.key := by decide
    exact hall op hop op' hop'
  | 1, 0 =>
    have hall : ∀ op ∈ twoThreads 1, ∀ op' ∈ twoThreads 0, op.key ≠ op'.key := by decide
    exact hall op hop op' hop'
  | t + 2, _ => cases hop
  | _, u + 2 => cases hop'

theorem twoThreads_inRange : ∀ t, ∀ op ∈ twoThreads t, op.InRange := by
  intro t
  match t with
  | 0 => decide
  | 1 => decide
  | t + 2 => intro op hop; cases hop

/-- Thread 1 gets the address that thread 0 has freed. -/
theorem coarse_partitioned_twoThreads : ∃ s, (machine twoThreads).run
    [.malloc 0 10 0, .critical 0 5, .critical 0 5, .free 0, .malloc 1 10 3, .critical 1 5,
      .critical 1 5] = some s ∧ s.Complete ∧ (s.thread 0).results = [true, true] ∧
    (∃ ks, Alone (twoThreads 0) [true, true] ks) ∧
    ∃ ks, Returns (fun n => s.heap.keys n) ks ∧ ks.Pairwise (· < ·) := by
  have hs : (((machine twoThreads).run
      [.malloc 0 10 0, .critical 0 5, .critical 0 5, .free 0, .malloc 1 10 3, .critical 1 5,
        .critical 1 5]).any fun s => decide ((s.thread 0).todo = [] ∧ (s.thread 1).todo = [] ∧
      (s.thread 0).results = [true, true])) = true := by decide +kernel
  obtain ⟨s, hrun, hp⟩ := (Option.any_eq_true _ _).mp hs
  obtain ⟨h0, h1, hres⟩ := of_decide_eq_true hp
  obtain ⟨p, S, hinv⟩ := inv_of_reachable twoThreads_partitioned twoThreads_inRange ⟨_, hrun⟩
  have hc : s.Complete := by
    intro t
    match t with
    | 0 => exact h0
    | 1 => exact h1
    | t + 2 => exact (List.append_eq_nil_iff.mp (hinv.good (t + 2)).work.symm).2
  obtain ⟨-, hcalls, hend⟩ :=
    coarse_partitioned twoThreads_partitioned twoThreads_inRange ⟨_, hrun⟩
  obtain ⟨rs, ks, halone, -, hrs⟩ := hcalls 0
  obtain ⟨ks', hret, hasc, -⟩ := hend hc
  rw [hrs hc, hres] at halone
  exact ⟨s, hrun, hc, hres, ⟨ks, halone⟩, ks', hret, hasc⟩

end MulticorePrac.ListSet.Coarse
