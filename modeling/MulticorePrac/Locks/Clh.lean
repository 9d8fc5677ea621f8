import MulticorePrac.Lib.Threads
import MulticorePrac.Lib.Path

/-!
# Lab6: the CLH lock (`clh.cpp`)

`lock` allocates a node with the value 0, exchanges it for `tail`, waits until the node it
got has the value 1 and frees that node; `unlock` writes 1 to the thread's own node.  A
node is thus allocated by one thread and freed by the next, and its address may come back
from `malloc` at once.

A pointer carries the number of its allocation next to the address, which the program
does not see.  An access through a pointer whose allocation is no longer the one at the
address is recorded in `fault`.

The nodes from that of the last thread that has entered to `tail` are the queue; the
invariant `Inv` says where each thread stands in it.
-/

namespace MulticorePrac.Clh

structure Ptr where
  addr : Nat
  serial : Nat
  deriving DecidableEq, Repr

/-- Where a thread is: `x` is its own node, `old` is `old_one`. -/
inductive Pc
  | outside
  | malloc
  | init (x : Ptr)
  | exchange (x : Ptr)
  | spin (x old : Ptr)
  | free (x old : Ptr)
  | critical (x : Ptr)
  | unlock (x : Ptr)
  deriving DecidableEq, Repr

structure Thread where
  pc : Pc
  round : Nat
  deriving DecidableEq, Repr

inductive Fault
  | usedAfterFree
  | freedTwice
  deriving DecidableEq, Repr

/-- `block a` is the allocation at address `a`; `order` and `entered` are the turns, in the order of
their exchanges on `tail` and of their returns from `lock`. -/
structure St where
  tail : Option Ptr
  cell : Nat → Int
  block : Nat → Option Nat
  allocated : Nat
  thread : Nat → Thread
  order : List (Nat × Nat)
  entered : List (Nat × Nat)
  fault : Option Fault

inductive Act
  | malloc (t : Nat) (addr : Nat)
  | run (t : Nat)
  deriving DecidableEq, Repr

def St.setThread (s : St) (t : Nat) (l : Thread) : St :=
  { s with thread := Function.update s.thread t l }

def St.goto (s : St) (t : Nat) (pc : Pc) : St := s.setThread t ⟨pc, (s.thread t).round⟩

/-- The memory at the pointer is still that of its allocation. -/
def St.valid (s : St) (p : Ptr) : Prop := s.block p.addr = some p.serial

instance (s : St) (p : Ptr) : Decidable (s.valid p) := inferInstanceAs (Decidable (_ = _))

def St.fail (s : St) (f : Fault) : St := { s with fault := some f }

/-- The next step of thread `t` in a round of `lock`, critical section and `unlock`; the step of
`malloc` is an action of its own. -/
def threadStep (s : St) (t : Nat) : Option St :=
  let turn := (t, (s.thread t).round)
  match (s.thread t).pc with
  | .outside => some (s.goto t .malloc)
  | .malloc => none
  | .init x =>
    some (if s.valid x then
      { s.goto t (.exchange x) with cell := Function.update s.cell x.addr 0 }
    else s.fail .usedAfterFree)
  | .exchange x =>
    match s.tail with
    | none =>
      some { s.goto t (.critical x) with
        tail := some x, order := s.order ++ [turn], entered := s.entered ++ [turn] }
    | some old =>
      some { s.goto t (.spin x old) with tail := some x, order := s.order ++ [turn] }
  | .spin x old =>
    some (if s.valid old then
      s.goto t (if s.cell old.addr = 0 then .spin x old else .free x old)
    else s.fail .usedAfterFree)
  | .free x old =>
    some (if s.valid old then
      { s.goto t (.critical x) with
        block := Function.update s.block old.addr none, entered := s.entered ++ [turn] }
    else s.fail .freedTwice)
  | .critical x => some (s.goto t (.unlock x))
  | .unlock x =>
    some (if s.valid x then
      { s.setThread t ⟨.outside, (s.thread t).round + 1⟩ with
        cell := Function.update s.cell x.addr 1 }
    else s.fail .usedAfterFree)

/-- `malloc` may return any address that is not allocated. -/
def step (n : Nat) (s : St) : Act → Option St
  | .malloc t a =>
    if t < n ∧ (s.thread t).pc = .malloc ∧ s.block a = none then
      some { s.goto t (.init ⟨a, s.allocated⟩) with
        block := Function.update s.block a (some s.allocated), allocated := s.allocated + 1 }
    else none
  | .run t => if t < n then threadStep s t else none

/-- `n` threads; `mem` is what the memory holds at the start. -/
def machine (n : Nat) (mem : Nat → Int) : Machine St Act where
  init := ⟨none, mem, fun _ => none, 0, fun _ => ⟨.outside, 0⟩, [], [], none⟩
  step := step n

/-- Between the return of `lock` and the start of `unlock`. -/
def Thread.Inside (l : Thread) : Prop := ∃ x, l.pc = .critical x

/-! ## The queue -/

/-- A node of the queue, with the turn that has put it there. -/
structure Entry where
  thread : Nat
  round : Nat
  node : Ptr

def Entry.turn (e : Entry) : Nat × Nat := (e.thread, e.round)

/-- Where thread `t` stands. -/
def Placed (s : St) (q : List Entry) (t : Nat) (l : Thread) : Prop :=
  match l.pc with
  | .outside | .malloc => True
  | .init x => s.valid x ∧ x ∉ q.map Entry.node
  | .exchange x => s.valid x ∧ x ∉ q.map Entry.node ∧ s.cell x.addr = 0
  | .spin x old => ∃ e, e.node = old ∧ Follows q e ⟨t, l.round, x⟩
  | .free x old => ∃ e r, e.node = old ∧ q = e :: ⟨t, l.round, x⟩ :: r ∧ s.cell old.addr ≠ 0
  | .critical x | .unlock x => ∃ r, q = ⟨t, l.round, x⟩ :: r ∧ s.cell x.addr = 0

/-- The thread has a node that is not in the queue yet. -/
def Thread.Prepares (l : Thread) (a : Nat) : Prop :=
  match l.pc with
  | .init x | .exchange x => x.addr = a
  | _ => False

/-- `q` is the queue: only its first node, that of the thread that has entered last, can have
another value than 0. -/
structure Inv (s : St) (q : List Entry) : Prop where
  tail : s.tail = q.getLast?.map Entry.node
  order : s.order = s.entered ++ q.tail.map Entry.turn
  valid : ∀ e ∈ q, s.valid e.node
  nodup : (q.map Entry.node).Nodup
  zero : ∀ e ∈ q.tail, s.cell e.node.addr = 0
  prepares : Exclusive Thread.Prepares s.thread
  placed : ∀ t, Placed s q t (s.thread t)
  fault : s.fault = none

section
variable {s s' : St} {q : List Entry} {t : Nat}

theorem valid_inj {p p' : Ptr} (h : s.valid p) (h' : s.valid p') (he : p.addr = p'.addr) :
    p = p' := by
  obtain ⟨a, i⟩ := p
  obtain ⟨b, j⟩ := p'
  cases he
  have hij : some i = some j := h.symm.trans h'
  cases hij
  rfl

/-- A step that only changes the place of a thread. -/
theorem Inv.goto (h : Inv s q) {pc : Pc} (hp : Placed s q t ⟨pc, (s.thread t).round⟩)
    (hprep : ∀ a, Thread.Prepares ⟨pc, (s.thread t).round⟩ a → (s.thread t).Prepares a) :
    Inv (s.goto t pc) q :=
  { h with
    prepares := h.prepares.keep hprep
    placed := forall_update (P := fun u l => Placed s q u l) hp fun u _ => h.placed u }

/-- A thread keeps its place when what is valid stays so and the values stay zero or not zero. -/
theorem Placed.frame {l : Thread} (h : Placed s q t l) (hvalid : ∀ x, s.valid x → s'.valid x)
    (hzero : ∀ a, s.cell a = 0 → s'.cell a = 0)
    (hone : ∀ e ∈ q, s.cell e.node.addr ≠ 0 → s'.cell e.node.addr ≠ 0) : Placed s' q t l := by
  obtain ⟨pc, round⟩ := l
  cases pc with
  | outside => trivial
  | malloc => trivial
  | init x => exact ⟨hvalid x h.1, h.2⟩
  | exchange x => exact ⟨hvalid x h.1, h.2.1, hzero _ h.2.2⟩
  | spin x old => exact h
  | free x old =>
    obtain ⟨e, r, rfl, hq, hc⟩ := h
    exact ⟨e, r, rfl, hq, hone e (by simp [hq]) hc⟩
  | critical x =>
    obtain ⟨r, hq, hc⟩ := h
    exact ⟨r, hq, hzero _ hc⟩
  | unlock x =>
    obtain ⟨r, hq, hc⟩ := h
    exact ⟨r, hq, hzero _ hc⟩

theorem Placed.prepares {l : Thread} (h : Placed s q t l) {a : Nat} (hl : l.Prepares a) :
    ∃ x, x.addr = a ∧ s.valid x ∧ x ∉ q.map Entry.node := by
  obtain ⟨pc, round⟩ := l
  cases pc with
  | init x => exact ⟨x, hl, h.1, h.2⟩
  | exchange x => exact ⟨x, hl, h.1, h.2.1⟩
  | outside | malloc | spin _ _ | free _ _ | critical _ | unlock _ => cases hl

/-! ## The steps -/

theorem inv_malloc (h : Inv s q) {a : Nat} (hfree : s.block a = none) :
    Inv { s.goto t (.init ⟨a, s.allocated⟩) with
      block := Function.update s.block a (some s.allocated), allocated := s.allocated + 1 } q := by
  -- the new node is at another address than every valid one
  have hne : ∀ x, s.valid x → x.addr ≠ a := by
    intro x hx he
    have : some x.serial = none := hx.symm.trans (he ▸ hfree)
    cases this
  have hvalid : ∀ x, s.valid x → Function.update s.block a (some s.allocated) x.addr =
      some x.serial := by
    intro x hx
    rw [Function.update_of_ne (hne x hx)]
    exact hx
  refine ⟨h.tail, h.order, fun e he => hvalid _ (h.valid e he), h.nodup, h.zero, ?_, ?_, h.fault⟩
  · refine h.prepares.update fun b u hb hu => ?_
    obtain ⟨x, hx, hval, -⟩ := (h.placed u).prepares hu
    have hab : a = b := hb
    exact absurd (hx.trans hab.symm) (hne x hval)
  · refine forall_update (P := fun u l => Placed _ q u l) ⟨?_, fun hmem => ?_⟩ fun u _ =>
      (h.placed u).frame hvalid (fun _ hc => hc) fun _ _ hc => hc
    · exact Function.update_self _ _ _
    · obtain ⟨e, he, heq⟩ := List.mem_map.mp hmem
      exact hne _ (h.valid e he) (congrArg Ptr.addr heq)

theorem inv_init (h : Inv s q) {x : Ptr} (hpc : (s.thread t).pc = .init x) (hx : s.valid x)
    (hq : x ∉ q.map Entry.node) :
    Inv { s.goto t (.exchange x) with cell := Function.update s.cell x.addr 0 } q := by
  have hne : ∀ e ∈ q, e.node.addr ≠ x.addr := fun e he heq =>
    hq (List.mem_map.mpr ⟨e, he, valid_inj (h.valid e he) hx heq⟩)
  have hzero : ∀ a, s.cell a = 0 → Function.update s.cell x.addr 0 a = 0 := by
    intro a ha
    by_cases he : a = x.addr
    · rw [he, Function.update_self]
    · rw [Function.update_of_ne he, ha]
  refine ⟨h.tail, h.order, h.valid, h.nodup, fun e he => hzero _ (h.zero e he), ?_, ?_, h.fault⟩
  · refine h.prepares.keep fun a ha => ?_
    unfold Thread.Prepares
    rw [hpc]
    exact ha
  · refine forall_update (P := fun u l => Placed _ q u l) ⟨hx, hq, ?_⟩ fun u _ =>
      (h.placed u).frame (fun _ hv => hv) hzero fun e he hc => ?_
    · exact Function.update_self _ _ _
    · show Function.update s.cell x.addr 0 e.node.addr ≠ 0
      rw [Function.update_of_ne (hne e he)]
      exact hc

/-- The places of the other threads after an entry `e` is put at the end of the queue. -/
theorem Placed.enqueue {l : Thread} (h : Placed s q t l) {e : Entry}
    (hne : ∀ x, l.Prepares x.addr → s.valid x → x ≠ e.node) : Placed s (q ++ [e]) t l := by
  have hnot : ∀ x, x ∉ q.map Entry.node → x ≠ e.node → x ∉ (q ++ [e]).map Entry.node := by
    intro x hx he
    simp only [List.map_append, List.map_cons, List.map_nil, List.mem_append, List.mem_singleton]
    exact fun hc => hc.elim hx he
  obtain ⟨pc, round⟩ := l
  cases pc with
  | outside => trivial
  | malloc => trivial
  | init x => exact ⟨h.1, hnot x h.2 (hne x rfl h.1)⟩
  | exchange x => exact ⟨h.1, hnot x h.2.1 (hne x rfl h.1), h.2.2⟩
  | spin x old =>
    obtain ⟨d, hd, hf⟩ := h
    obtain ⟨l, r, rfl⟩ := follows_iff.mp hf
    exact ⟨d, hd, follows_iff.mpr ⟨l, r ++ [e], by simp⟩⟩
  | free x old =>
    obtain ⟨d, r, hd, rfl, hc⟩ := h
    exact ⟨d, r ++ [e], hd, rfl, hc⟩
  | critical x =>
    obtain ⟨r, rfl, hc⟩ := h
    exact ⟨r ++ [e], rfl, hc⟩
  | unlock x =>
    obtain ⟨r, rfl, hc⟩ := h
    exact ⟨r ++ [e], rfl, hc⟩

/-- What an exchange keeps, whether the queue was empty or not. -/
theorem Inv.enqueue (h : Inv s q) {x : Ptr} (hpc : (s.thread t).pc = .exchange x) {pc : Pc}
    {entered : List (Nat × Nat)}
    (hout : ∀ a, ¬Thread.Prepares ⟨pc, (s.thread t).round⟩ a)
    (hp : Placed s (q ++ [⟨t, (s.thread t).round, x⟩]) t ⟨pc, (s.thread t).round⟩)
    (hentered : s.order ++ [(t, (s.thread t).round)] =
      entered ++ (q ++ [Entry.mk t (s.thread t).round x]).tail.map Entry.turn) :
    Inv { s.goto t pc with
      tail := some x, order := s.order ++ [(t, (s.thread t).round)], entered := entered }
      (q ++ [Entry.mk t (s.thread t).round x]) := by
  have hplace := h.placed t
  unfold Placed at hplace
  rw [hpc] at hplace
  obtain ⟨hx, hq, hc⟩ := hplace
  have hprep : (s.thread t).Prepares x.addr := by
    unfold Thread.Prepares
    rw [hpc]
  refine ⟨?_, hentered, fun e he => ?_, ?_, fun e he => ?_, ?_, ?_, h.fault⟩
  · rw [List.getLast?_concat]
    rfl
  · rcases List.mem_append.mp he with he | he
    · exact h.valid e he
    · rw [List.mem_singleton.mp he]
      exact hx
  · rw [List.map_append, List.nodup_append]
    refine ⟨h.nodup, List.nodup_singleton _, fun y hy z hz hyz => hq ?_⟩
    have hzx : z = x := List.mem_singleton.mp hz
    rwa [← hzx, ← hyz]
  · rcases List.mem_append.mp (List.mem_of_mem_tail he) with hmem | hmem
    · cases q with
      | nil => cases hmem
      | cons d r =>
        rcases List.mem_append.mp he with hr | hr
        · exact h.zero e hr
        · rw [List.mem_singleton.mp hr]
          exact hc
    · rw [List.mem_singleton.mp hmem]
      exact hc
  · exact h.prepares.keep fun a ha => absurd ha (hout a)
  · refine forall_update (P := fun u l => Placed s (q ++ [⟨t, (s.thread t).round, x⟩]) u l) hp
      fun u hu => (h.placed u).enqueue fun y hy _ hyx => ?_
    subst hyx
    exact hu (h.prepares u t _ hy hprep)

theorem inv_exchange_nil (h : Inv s q) {x : Ptr} (hpc : (s.thread t).pc = .exchange x)
    (htail : s.tail = none) :
    ∃ q', Inv { s.goto t (.critical x) with
      tail := some x, order := s.order ++ [(t, (s.thread t).round)],
      entered := s.entered ++ [(t, (s.thread t).round)] } q' := by
  have hnil : q = [] := by
    have hlast := h.tail
    rw [htail, eq_comm, Option.map_eq_none_iff, List.getLast?_eq_none_iff] at hlast
    exact hlast
  subst hnil
  have hplace := h.placed t
  unfold Placed at hplace
  rw [hpc] at hplace
  have hall : s.order = s.entered := by simpa using h.order
  refine ⟨_, h.enqueue hpc (fun a ha => ha) ⟨[], rfl, hplace.2.2⟩ ?_⟩
  simp [hall]

theorem inv_exchange_some (h : Inv s q) {x old : Ptr} (hpc : (s.thread t).pc = .exchange x)
    (htail : s.tail = some old) :
    ∃ q', Inv { s.goto t (.spin x old) with
      tail := some x, order := s.order ++ [(t, (s.thread t).round)] } q' := by
  have hlast := h.tail
  rw [htail, eq_comm, Option.map_eq_some_iff] at hlast
  obtain ⟨d, hd, hold⟩ := hlast
  obtain ⟨r, rfl⟩ := List.getLast?_eq_some_iff.mp hd
  refine ⟨_, h.enqueue hpc (fun a ha => ha) ⟨d, hold, ?_⟩ ?_⟩
  · exact follows_iff.mpr ⟨r, [], by simp⟩
  · have hne : r ++ [d] ≠ [] := by simp
    rw [h.order, List.tail_append_of_ne_nil hne, List.map_append, List.append_assoc]
    rfl

/-- A node whose value is not 0 is the first one of the queue. -/
theorem Inv.first_of_ne_zero (h : Inv s q) {e d : Entry} (hf : Follows q e d)
    (hc : s.cell e.node.addr ≠ 0) : ∃ r, q = e :: d :: r := by
  obtain ⟨l, r, rfl⟩ := follows_iff.mp hf
  cases l with
  | nil => exact ⟨r, rfl⟩
  | cons y l => exact absurd (h.zero e (by simp)) hc

theorem inv_spin (h : Inv s q) {x old : Ptr} {e : Entry} (he : e.node = old)
    (hf : Follows q e ⟨t, (s.thread t).round, x⟩) :
    Inv (s.goto t (if s.cell old.addr = 0 then .spin x old else .free x old)) q := by
  by_cases hc : s.cell old.addr = 0
  · rw [if_pos hc]
    exact h.goto ⟨e, he, hf⟩ fun a ha => ha.elim
  · rw [if_neg hc]
    obtain ⟨r, hr⟩ := h.first_of_ne_zero hf (he ▸ hc)
    exact h.goto ⟨e, r, he, hr, hc⟩ fun a ha => ha.elim

/-- The places of the other threads after the first node of the queue, which has not the value 0,
is freed by the thread of the second. -/
theorem Placed.dequeue {l : Thread} {e d : Entry} {r : List Entry} (h : Placed s (e :: d :: r) t l)
    (ht : t ≠ d.thread) (hc : s.cell e.node.addr ≠ 0) (hcell : s'.cell = s.cell)
    (hvalid : ∀ y, s.valid y → y ≠ e.node → s'.valid y) : Placed s' (d :: r) t l := by
  obtain ⟨pc, round⟩ := l
  cases pc with
  | outside => trivial
  | malloc => trivial
  | init y =>
    obtain ⟨hy, hn⟩ := h
    rw [List.map_cons, List.mem_cons, not_or] at hn
    exact ⟨hvalid y hy hn.1, hn.2⟩
  | exchange y =>
    obtain ⟨hy, hn, hz⟩ := h
    rw [List.map_cons, List.mem_cons, not_or] at hn
    exact ⟨hvalid y hy hn.1, hn.2, hcell ▸ hz⟩
  | spin y old =>
    obtain ⟨b, hb, hf⟩ := h
    rcases follows_cons.mp hf with ⟨-, hhead⟩ | hf
    · cases hhead
      exact absurd rfl ht
    · exact ⟨b, hb, hf⟩
  | free y old =>
    obtain ⟨b, r', -, heq, -⟩ := h
    cases heq
    exact absurd rfl ht
  | critical y =>
    obtain ⟨r', heq, hz⟩ := h
    cases heq
    exact absurd hz hc
  | unlock y =>
    obtain ⟨r', heq, hz⟩ := h
    cases heq
    exact absurd hz hc

/-- The thread behind the first node of the queue frees it and enters. -/
theorem inv_free (h : Inv s q) {x : Ptr} {e : Entry} {r : List Entry}
    (hq : q = e :: ⟨t, (s.thread t).round, x⟩ :: r) (hc : s.cell e.node.addr ≠ 0) :
    Inv { s.goto t (.critical x) with
      block := Function.update s.block e.node.addr none,
      entered := s.entered ++ [(t, (s.thread t).round)] } (⟨t, (s.thread t).round, x⟩ :: r) := by
  subst hq
  have hvalid : ∀ y, s.valid y → y ≠ e.node →
      Function.update s.block e.node.addr none y.addr = some y.serial := by
    intro y hy hne
    rw [Function.update_of_ne fun ha => hne (valid_inj hy (h.valid e (by simp)) ha)]
    exact hy
  obtain ⟨hnot, hnd⟩ := List.nodup_cons.mp h.nodup
  refine ⟨?_, ?_, fun d hd => ?_, hnd, fun d hd => ?_, ?_, ?_, h.fault⟩
  · exact h.tail
  · show s.order = _
    rw [h.order]
    simp [Entry.turn]
  · refine hvalid _ (h.valid d (List.mem_cons_of_mem _ hd)) fun heq => hnot ?_
    rw [← heq]
    exact List.mem_map_of_mem hd
  · exact h.zero d (List.mem_cons_of_mem _ hd)
  · exact h.prepares.keep fun a ha => ha.elim
  · have hx : s.cell x.addr = 0 := h.zero ⟨t, (s.thread t).round, x⟩ List.mem_cons_self
    exact forall_update (P := fun u l => Placed _ _ u l) ⟨r, rfl, hx⟩ fun u hu =>
      (h.placed u).dequeue hu hc rfl hvalid

/-- The places of the other threads after the thread of the first node has written 1 to it. -/
theorem Placed.release {l : Thread} {e : Entry} {r : List Entry} (h : Placed s (e :: r) t l)
    (ht : t ≠ e.thread) (hc : s.cell e.node.addr = 0) (hblock : s'.block = s.block)
    (hcell : ∀ y, s.valid y → y ≠ e.node → s'.cell y.addr = s.cell y.addr) :
    Placed s' (e :: r) t l := by
  have hvalid : ∀ y, s.valid y → s'.valid y := fun y hy => by
    unfold St.valid
    rw [hblock]
    exact hy
  obtain ⟨pc, round⟩ := l
  cases pc with
  | outside => trivial
  | malloc => trivial
  | init y => exact ⟨hvalid y h.1, h.2⟩
  | exchange y =>
    obtain ⟨hy, hn, hz⟩ := h
    refine ⟨hvalid y hy, hn, ?_⟩
    rw [hcell y hy fun heq => hn (by simp [heq])]
    exact hz
  | spin y old => exact h
  | free y old =>
    -- the first node has the value 0, so nobody is about to free it
    obtain ⟨d, r', rfl, heq, hz⟩ := h
    cases heq
    exact absurd hc hz
  | critical y =>
    obtain ⟨r', heq, -⟩ := h
    cases heq
    exact absurd rfl ht
  | unlock y =>
    obtain ⟨r', heq, -⟩ := h
    cases heq
    exact absurd rfl ht

theorem inv_unlock (h : Inv s q) {x : Ptr} {r : List Entry}
    (hq : q = ⟨t, (s.thread t).round, x⟩ :: r) (hc : s.cell x.addr = 0) :
    Inv { s.setThread t ⟨.outside, (s.thread t).round + 1⟩ with
      cell := Function.update s.cell x.addr 1 } q := by
  subst hq
  have hx : s.valid x := h.valid _ List.mem_cons_self
  have hcell : ∀ y, s.valid y → y ≠ x → Function.update s.cell x.addr 1 y.addr = s.cell y.addr :=
    fun y hy hne => Function.update_of_ne (fun ha => hne (valid_inj hy hx ha)) _ _
  obtain ⟨hnot, -⟩ := List.nodup_cons.mp h.nodup
  refine ⟨h.tail, h.order, h.valid, h.nodup, fun d hd => ?_, ?_, ?_, h.fault⟩
  · have hd' : d ∈ r := hd
    show Function.update s.cell x.addr 1 d.node.addr = 0
    rw [hcell _ (h.valid d (List.mem_cons_of_mem _ hd'))]
    · exact h.zero d hd
    · intro heq
      have heq' : d.node = (⟨t, (s.thread t).round, x⟩ : Entry).node := heq
      exact hnot (heq' ▸ List.mem_map_of_mem hd')
  · exact h.prepares.keep fun a ha => ha.elim
  · exact forall_update (P := fun u l => Placed _ _ u l) trivial fun u hu =>
      (h.placed u).release hu hc rfl hcell

theorem inv_threadStep (h : Inv s q) (hs : threadStep s t = some s') : ∃ q', Inv s' q' := by
  have hplace := h.placed t
  unfold Placed at hplace
  unfold threadStep at hs
  cases hpc : (s.thread t).pc with
  | outside =>
    simp only [hpc] at hs
    cases hs
    exact ⟨q, h.goto trivial fun a ha => ha.elim⟩
  | malloc => simp only [hpc] at hs; cases hs
  | init x =>
    simp only [hpc] at hs hplace
    rw [if_pos hplace.1] at hs
    cases hs
    exact ⟨q, inv_init h hpc hplace.1 hplace.2⟩
  | exchange x =>
    simp only [hpc] at hs
    cases htail : s.tail with
    | none =>
      rw [htail] at hs
      cases hs
      exact inv_exchange_nil h hpc htail
    | some old =>
      rw [htail] at hs
      cases hs
      exact inv_exchange_some h hpc htail
  | spin x old =>
    simp only [hpc] at hs hplace
    obtain ⟨e, he, hf⟩ := hplace
    have hvalid : s.valid old := he ▸ h.valid e hf.left_mem
    rw [if_pos hvalid] at hs
    cases hs
    exact ⟨q, inv_spin h he hf⟩
  | free x old =>
    simp only [hpc] at hs hplace
    obtain ⟨e, r, rfl, hq, hc⟩ := hplace
    have hvalid : s.valid e.node := h.valid e (by simp [hq])
    rw [if_pos hvalid] at hs
    cases hs
    exact ⟨_, inv_free h hq hc⟩
  | critical x =>
    simp only [hpc] at hs hplace
    cases hs
    exact ⟨q, h.goto hplace fun a ha => ha.elim⟩
  | unlock x =>
    simp only [hpc] at hs hplace
    obtain ⟨r, hq, hc⟩ := hplace
    have hvalid : s.valid x := h.valid _ (by rw [hq]; exact List.mem_cons_self)
    rw [if_pos hvalid] at hs
    cases hs
    exact ⟨q, inv_unlock h hq hc⟩

theorem inv_of_reachable {n : Nat} {mem : Nat → Int} (hs : (machine n mem).Reachable s) :
    ∃ q, Inv s q := by
  refine (machine n mem).invariant (fun s => ∃ q, Inv s q) ?_ ?_ hs
  · refine ⟨[], rfl, rfl, fun e he => ?_, List.nodup_nil, fun e he => ?_, ?_, fun t => trivial, rfl⟩
    · cases he
    · cases he
    · intro t u a ha
      cases ha
  · rintro s a s' ⟨q, h⟩ hstep
    cases a with
    | malloc t a =>
      simp only [machine, step] at hstep
      split at hstep
      · rename_i hc
        cases hstep
        exact ⟨q, inv_malloc h hc.2.2⟩
      · cases hstep
    | run t =>
      simp only [machine, step] at hstep
      split at hstep
      · exact inv_threadStep h hstep
      · cases hstep

/-- The thread inside is that of the first node of the queue. -/
theorem Inv.first_of_inside (h : Inv s q) (ht : (s.thread t).Inside) :
    ∃ e, q.head? = some e ∧ e.thread = t := by
  obtain ⟨x, hpc⟩ := ht
  have hplace := h.placed t
  unfold Placed at hplace
  rw [hpc] at hplace
  obtain ⟨r, rfl, -⟩ := hplace
  exact ⟨_, rfl, rfl⟩

end

/-- In every state of every run at most one thread is between the return of `lock` and the start of
`unlock`, the turns have entered in the order of their exchanges on `tail`, and no node has been
freed twice, read or written after it was freed. -/
theorem clh_safe {n : Nat} {mem : Nat → Int} {s : St} (hs : (machine n mem).Reachable s) :
    (∀ t u, (s.thread t).Inside → (s.thread u).Inside → t = u) ∧
    (∃ waiting, s.order = s.entered ++ waiting) ∧ s.fault = none := by
  obtain ⟨q, h⟩ := inv_of_reachable hs
  refine ⟨fun t u ht hu => ?_, ⟨_, h.order⟩, h.fault⟩
  obtain ⟨e, he, rfl⟩ := h.first_of_inside ht
  obtain ⟨d, hd, rfl⟩ := h.first_of_inside hu
  rw [he] at hd
  cases hd
  rfl

/-- Thread 1 frees the node of thread 0 and enters; the address is used again by thread 0 for its
next round. -/
def reuseRun : List Act :=
  [.run 0, .malloc 0 40, .run 0, .run 0, .run 1, .malloc 1 41, .run 1, .run 1, .run 1, .run 0,
    .run 0, .run 1, .run 1, .run 0, .malloc 0 40, .run 0, .run 0, .run 0]

theorem clh_safe_reuseRun : ∃ s, (machine 2 fun _ => 7).run reuseRun = some s ∧
    (s.thread 1).pc = .critical ⟨41, 1⟩ ∧ (s.thread 0).pc = .spin ⟨40, 2⟩ ⟨41, 1⟩ ∧
    s.order = [(0, 0), (1, 0), (0, 1)] ∧ s.entered = [(0, 0), (1, 0)] ∧ s.fault = none := by
  have hs : (((machine 2 fun _ => 7).run reuseRun).any fun s =>
      decide ((s.thread 1).pc = .critical ⟨41, 1⟩ ∧ (s.thread 0).pc = .spin ⟨40, 2⟩ ⟨41, 1⟩ ∧
        s.order = [(0, 0), (1, 0), (0, 1)] ∧ s.entered = [(0, 0), (1, 0)])) = true := by
    decide +kernel
  obtain ⟨s, hrun, hp⟩ := (Option.any_eq_true _ _).mp hs
  obtain ⟨h1, h0, horder, hentered⟩ := of_decide_eq_true hp
  exact ⟨s, hrun, h1, h0, horder, hentered, (clh_safe ⟨_, hrun⟩).2.2⟩

end MulticorePrac.Clh
