import MulticorePrac.Lib.Workload
import MulticorePrac.ListSet.State
import MulticorePrac.ListSet.Coarse

/-!
# Lab11: the whole programs

`main` reads a workload for each thread, creates the threads, waits for them, and compares
the list with the keys of `result.txt`.  `ThreadFunc` does the entries of its workload in order.
The three programs differ in the list only (`Impl`), so what follows is said of every list
that is a set (`Impl.IsSet`) and whose operations end (`Impl.Ends`).

When no key is used by two threads, as in `workload.txt`, the others are not noticed: a call
returns what it returns when its thread is alone, and `main` prints `correct!` exactly when
`result.txt` has the keys that the threads leave alone (`Impl.IsSet.results`).  No run goes on
forever, and none ends before `main` has printed (`Impl.Ends.length_le`, `Impl.Ends.printed`).
-/

namespace MulticorePrac.ListSet

/-! ## Workloads -/

/-- An entry of `g_thread_work`. -/
structure Work where
  type : Char
  value : Int
  deriving DecidableEq, Repr

/-- The `switch` of `ThreadFunc`; an entry of another type is passed over. -/
def Work.op (w : Work) : Option Op :=
  match w.type with
  | 'A' => some (.add w.value)
  | 'R' => some (.remove w.value)
  | 'C' => some (.contains w.value)
  | _ => none

/-- What `main` reads from `workload.txt` and `result.txt`: the entries for each thread and the keys
that it expects.  The keys of the entries are `int`s below `INT_MAX`, the key of the tail: with that
key an operation takes the tail for its node. -/
structure Input where
  numThread : Nat
  work : Nat → List Work
  result : List Int
  inRange : ∀ t, ∀ w ∈ work t, INT_MIN ≤ w.value ∧ w.value < INT_MAX

/-- The operations that thread `t` is to do. -/
def Input.ops (i : Input) (t : Nat) : List Op :=
  if t < i.numThread then (i.work t).filterMap Work.op else []

/-- The keys that the threads leave when each of them is alone. -/
def Input.expected (i : Input) : Finset Int :=
  (Finset.range i.numThread).biUnion fun t => (setObject.run ∅ (i.ops t)).1

theorem Work.key_of_op {w : Work} {op : Op} (h : w.op = some op) : op.key = w.value := by
  unfold Work.op at h
  split at h <;> cases h <;> rfl

theorem Input.inRange_of_op (i : Input) {t : Nat} {w : Work} {op : Op} (hw : w ∈ i.work t)
    (h : w.op = some op) : op.InRange := by
  unfold Op.InRange
  rw [Work.key_of_op h]
  exact i.inRange t w hw

/-! ## The program -/

/-- A list with its threads: whether a thread is between two operations, and how many it has
completed. -/
structure Impl (τ : Type) where
  machine : Machine (State τ) Act
  idle : τ → Bool
  calls : τ → Nat

inductive MainPc
  | create (k : Nat)
  | join (k : Nat)
  | check (it : Nat) (rest : List Int)
  | printed (valid : Bool)
  deriving DecidableEq, Repr

/-- The list with the threads, the entry that each thread comes to next, and `main`. -/
structure Prog (τ : Type) where
  list : State τ
  idx : Nat → Nat
  main : MainPc

inductive ProgAct
  | main
  | next (t : Nat)
  | run (t : Nat)
  | malloc (t addr junk : Nat)
  deriving DecidableEq, Repr

section
variable {τ : Type} (L : Impl τ) (i : Input)

def Prog.created (s : Prog τ) (t : Nat) : Bool :=
  match s.main with
  | .create k => decide (t < k)
  | _ => decide (t < i.numThread)

/-- `ThreadFunc` has returned. -/
def Prog.finished (s : Prog τ) (t : Nat) : Bool :=
  L.idle (s.list.thread t) && decide ((i.work t).length ≤ s.idx t)

/-- `main` after the input: it creates the threads and joins them, and goes along the list with the
keys of `result.txt`, one at a step. -/
def mainStep (s : Prog τ) : Option (Prog τ) :=
  match s.main with
  | .create k => some { s with main := if k < i.numThread then .create (k + 1) else .join 0 }
  | .join k =>
    if k < i.numThread then
      if s.finished L i k then some { s with main := .join (k + 1) } else none
    else some { s with main := .check (s.list.next HEAD) i.result }
  | .check it [] => some { s with main := .printed (decide (it = TAIL)) }
  | .check it (value :: rest) =>
    some { s with
      main :=
        if it = TAIL then .printed false
        else if s.list.key it ≠ value then .printed false
        else .check (s.list.next it) rest }
  | .printed _ => none

/-- `ThreadFunc` comes to its next entry. -/
def nextStep (s : Prog τ) (t : Nat) : Option (Prog τ) :=
  if L.idle (s.list.thread t) then
    match (i.work t)[s.idx t]? with
    | none => none
    | some w =>
      match w.op with
      | none => some { s with idx := Function.update s.idx t (s.idx t + 1) }
      | some op =>
        (L.machine.step s.list (.call t op)).map fun list =>
          { s with list := list, idx := Function.update s.idx t (s.idx t + 1) }
  else none

/-- A step inside an operation. -/
def insideStep (s : Prog τ) (a : Act) : Option (Prog τ) :=
  (L.machine.step s.list a).map fun list => { s with list := list }

def progStep (s : Prog τ) : ProgAct → Option (Prog τ)
  | .main => mainStep L i s
  | .next t => if s.created i t then nextStep L i s t else none
  | .run t => if s.created i t then insideStep L s (.run t) else none
  | .malloc t addr junk => if s.created i t then insideStep L s (.malloc t addr junk) else none

def program : Machine (Prog τ) ProgAct := ⟨⟨L.machine.init, fun _ => 0, .create 0⟩, progStep L i⟩

end

/-- An action of thread `t` inside an operation. -/
def Act.Inside (t : Nat) (a : Act) : Prop := a = .run t ∨ ∃ addr junk, a = .malloc t addr junk

/-! ## What the list is taken to be -/

section
variable {τ : Type}

/-- What a step of thread `t` inside an operation does: the operation goes on, or returns. -/
structure Impl.Moved (L : Impl τ) (s s' : State τ) (t : Nat) (l : τ) : Prop where
  busy : L.idle (s.thread t) = false
  thread : s'.thread = Function.update s.thread t l
  hist : (L.idle l = false ∧ L.calls l = L.calls (s.thread t) ∧ s'.hist = s.hist) ∨
    ∃ r, L.idle l = true ∧ L.calls l = L.calls (s.thread t) + 1 ∧
      s'.hist = s.hist ++ [.ret (t, L.calls (s.thread t)) r]

/-- A list whose operations are those of a set, in every interleaving. -/
structure Impl.IsSet (L : Impl τ) : Prop where
  initial : ∀ t, L.idle (L.machine.init.thread t) = true ∧ L.calls (L.machine.init.thread t) = 0
  hist : L.machine.init.hist = []
  call : ∀ s t op s', L.machine.step s (.call t op) = some s' →
    ∃ l, s'.thread = Function.update s.thread t l ∧ L.idle l = false ∧
      L.calls l = L.calls (s.thread t) ∧ s'.hist = s.hist ++ [.call (t, L.calls (s.thread t)) op]
  inside : ∀ s t a s', a.Inside t → L.machine.step s a = some s' → ∃ l, L.Moved s s' t l
  set : ∀ s, L.machine.Reachable s → ∃ ns, Linearizable setObject s.hist (ns.map s.key).toFinset ∧
    (ns.map s.key).Pairwise (· < ·) ∧ TAIL ∉ ns ∧ ((∀ t, L.idle (s.thread t) = true) →
      (HEAD :: (ns ++ [TAIL])).IsChain fun a b => s.next a = b)

/-- A mutex is taken inside an operation. -/
theorem Impl.moved_of_lock {L : Impl τ} {s s' : State τ} {t a : Nat} {l : τ}
    (hs : s.lock t a l = some s') (hbusy : L.idle (s.thread t) = false) (hl : L.idle l = false)
    (hcalls : L.calls l = L.calls (s.thread t)) : L.Moved s s' t l := by
  obtain ⟨-, hs⟩ := Option.ite_none_right_eq_some.mp hs
  cases hs
  exact ⟨hbusy, rfl, Or.inl ⟨hl, hcalls, rfl⟩⟩

theorem IsPath.tail_notMem {key : Nat → Int} {ns : List Nat} {S : Finset Int}
    (h : IsPath key (HEAD :: (ns ++ [TAIL])) S) : TAIL ∉ ns := fun hc =>
  List.disjoint_of_nodup_append (List.nodup_cons.mp h.asc.nodup).2 hc (List.mem_singleton_self _)

/-- A list whose threads never all wait, and where each step pays: `budget n` is what a call may cost
among `n` threads. -/
structure Impl.Ends (L : Impl τ) (cost : Nat → State τ → Nat) (budget : Nat → Nat) : Prop where
  initial : ∀ n, cost n L.machine.init = 0
  budget_pos : ∀ n, 0 < budget n
  callable : ∀ s t op, L.idle (s.thread t) = true → op.InRange →
    ∃ s', L.machine.step s (.call t op) = some s'
  progress : ∀ s t, L.machine.Reachable s → L.idle (s.thread t) = false → ∃ u a s',
    a.Inside u ∧ L.machine.step s a = some s'
  pays_call : ∀ n s t op s', L.machine.Reachable s → t < n →
    L.machine.step s (.call t op) = some s' → cost n s' < cost n s + budget n
  pays_inside : ∀ n s t a s', L.machine.Reachable s → t < n → a.Inside t →
    L.machine.step s a = some s' → cost n s' < cost n s

end

/-- There is room for more nodes: only finitely many addresses are allocated. -/
def State.Roomy {τ : Type} (s : State τ) : Prop := ∃ b, ∀ x, b ≤ x → s.live x = false

theorem roomy_listInit {τ : Type} (l : τ) : (listInit l).Roomy := by
  refine ⟨3, fun x hx => ?_⟩
  show Function.update (Function.update (fun _ => false) HEAD true) TAIL true x = false
  rw [Function.update_of_ne (by unfold TAIL; omega), Function.update_of_ne (by unfold HEAD; omega)]

/-- A step that allocates at most one node. -/
theorem State.Roomy.step {τ : Type} {s s' : State τ} (h : s.Roomy) (addr : Nat)
    (hlive : ∀ x, x ≠ addr → s'.live x = true → s.live x = true) : s'.Roomy := by
  obtain ⟨b, hb⟩ := h
  refine ⟨b + addr + 1, fun x hx => ?_⟩
  cases hl : s'.live x with
  | false => rfl
  | true =>
    have := hlive x (by omega) hl
    rw [hb x (by omega)] at this
    cases this

theorem State.Roomy.exists_free {τ : Type} {s : State τ} (h : s.Roomy) :
    ∃ addr, s.live addr = false ∧ addr ≠ NULL := by
  obtain ⟨b, hb⟩ := h
  exact ⟨b + 1, hb _ (Nat.le_succ b), Nat.succ_ne_zero b⟩

/-- How far a node is from the tail, at most. -/
def toTail (key : Nat → Int) (x : Nat) : Nat := (INT_MAX - rank key x).toNat

theorem toTail_lt {key : Nat → Int} {x y : Nat} (h : rank key x < rank key y)
    (hy : rank key y ≤ INT_MAX) : toTail key y < toTail key x := by
  unfold toTail
  omega

theorem toTail_head (key : Nat → Int) : toTail key HEAD = 4294967296 := by
  rw [toTail, rank_head]
  rfl

/-! ## What a step does -/

section
variable {τ : Type} {L : Impl τ} {i : Input} {s s' : Prog τ} {t : Nat}

/-- A step of a thread: it passes over an entry, calls an operation, or goes on in one. -/
inductive ThreadStep (L : Impl τ) (i : Input) (s s' : Prog τ) (t : Nat) : Prop
  | skip (w : Work) (hidle : L.idle (s.list.thread t) = true)
      (hw : (i.work t)[s.idx t]? = some w) (hop : w.op = none) (hlist : s'.list = s.list)
      (hidx : s'.idx = Function.update s.idx t (s.idx t + 1))
  | call (w : Work) (op : Op) (hidle : L.idle (s.list.thread t) = true)
      (hw : (i.work t)[s.idx t]? = some w) (hop : w.op = some op)
      (hlist : L.machine.step s.list (.call t op) = some s'.list)
      (hidx : s'.idx = Function.update s.idx t (s.idx t + 1))
  | inside (a : Act) (ha : a.Inside t) (hlist : L.machine.step s.list a = some s'.list)
      (hidx : s'.idx = s.idx)

theorem step_cases {a : ProgAct} (hs : (program L i).step s a = some s') :
    mainStep L i s = some s' ∨
      ∃ t, s.created i t = true ∧ s'.main = s.main ∧ ThreadStep L i s s' t := by
  have hinside : ∀ t b, b.Inside t → s.created i t = true → insideStep L s b = some s' →
      ∃ t, s.created i t = true ∧ s'.main = s.main ∧ ThreadStep L i s s' t := by
    intro t b hb hc hstep
    obtain ⟨list, hlist, rfl⟩ := Option.map_eq_some_iff.mp hstep
    exact ⟨t, hc, rfl, .inside b hb hlist rfl⟩
  cases a with
  | main => exact Or.inl hs
  | next t =>
    obtain ⟨hc, hs⟩ := Option.ite_none_right_eq_some.mp hs
    obtain ⟨hidle, hs⟩ := Option.ite_none_right_eq_some.mp hs
    refine Or.inr ⟨t, hc, ?_⟩
    split at hs
    · cases hs
    · rename_i w hw
      split at hs
      · rename_i hop
        cases hs
        exact ⟨rfl, .skip w hidle hw hop rfl rfl⟩
      · rename_i op hop
        obtain ⟨list, hlist, rfl⟩ := Option.map_eq_some_iff.mp hs
        exact ⟨rfl, .call w op hidle hw hop hlist rfl⟩
  | run t =>
    obtain ⟨hc, hs⟩ := Option.ite_none_right_eq_some.mp hs
    exact Or.inr (hinside t _ (Or.inl rfl) hc hs)
  | malloc t addr junk =>
    obtain ⟨hc, hs⟩ := Option.ite_none_right_eq_some.mp hs
    exact Or.inr (hinside t _ (Or.inr ⟨addr, junk, rfl⟩) hc hs)

theorem mainStep_same (hs : mainStep L i s = some s') : s'.list = s.list ∧ s'.idx = s.idx := by
  unfold mainStep at hs
  split at hs
  · cases hs
    exact ⟨rfl, rfl⟩
  · split at hs
    · obtain ⟨-, hs⟩ := Option.ite_none_right_eq_some.mp hs
      cases hs
      exact ⟨rfl, rfl⟩
    · cases hs
      exact ⟨rfl, rfl⟩
  · cases hs
    exact ⟨rfl, rfl⟩
  · cases hs
    exact ⟨rfl, rfl⟩
  · cases hs

theorem ThreadStep.reachable (h : ThreadStep L i s s' t) (hr : L.machine.Reachable s.list) :
    L.machine.Reachable s'.list := by
  cases h with
  | skip w hidle hw hop hlist hidx => rwa [hlist]
  | call w op hidle hw hop hlist hidx => exact hr.step L.machine hlist
  | inside a ha hlist hidx => exact hr.step L.machine hlist

/-- A thread that has returned takes no step. -/
theorem ThreadStep.not_finished (hL : L.IsSet) (h : ThreadStep L i s s' t) :
    s.finished L i t = false := by
  unfold Prog.finished
  cases h with
  | skip w hidle hw hop hlist hidx =>
    rw [hidle, Bool.true_and, decide_eq_false_iff_not, Nat.not_le]
    exact (List.getElem?_eq_some_iff.mp hw).1
  | call w op hidle hw hop hlist hidx =>
    rw [hidle, Bool.true_and, decide_eq_false_iff_not, Nat.not_le]
    exact (List.getElem?_eq_some_iff.mp hw).1
  | inside a ha hlist hidx =>
    obtain ⟨l, hl⟩ := hL.inside _ _ _ _ ha hlist
    rw [hl.busy, Bool.false_and]

/-- The other threads stay where they are. -/
theorem ThreadStep.other (hL : L.IsSet) (h : ThreadStep L i s s' t) {u : Nat} (hu : u ≠ t) :
    s'.list.thread u = s.list.thread u ∧ s'.idx u = s.idx u := by
  cases h with
  | skip w hidle hw hop hlist hidx =>
    rw [hlist, hidx, Function.update_of_ne hu]
    exact ⟨rfl, rfl⟩
  | call w op hidle hw hop hlist hidx =>
    obtain ⟨l, hl, -⟩ := hL.call _ _ _ _ hlist
    rw [hl, hidx, Function.update_of_ne hu, Function.update_of_ne hu]
    exact ⟨rfl, rfl⟩
  | inside a ha hlist hidx =>
    obtain ⟨l, hl⟩ := hL.inside _ _ _ _ ha hlist
    rw [hl.thread, hidx, Function.update_of_ne hu]
    exact ⟨rfl, rfl⟩

/-! ## What holds in every state -/

/-- The comparison of the list with the keys, from the node `it` on. -/
def validate (key : Nat → Int) (next : Nat → Nat) : Nat → List Int → Bool
  | it, [] => decide (it = TAIL)
  | it, value :: rest =>
    if it = TAIL then false
    else if key it ≠ value then false
    else validate key next (next it) rest

/-- What the comparison of the whole list with `result.txt` gives. -/
def Prog.valid (i : Input) (s : Prog τ) : Bool :=
  validate s.list.key s.list.next (s.list.next HEAD) i.result

/-- What `main` has done: the threads that it has joined have returned, and it prints what the
comparison of the whole list gives. -/
def MainInv (L : Impl τ) (i : Input) (s : Prog τ) : MainPc → Prop
  | .create k => k ≤ i.numThread
  | .join k => ∀ u < k, s.finished L i u = true
  | .check it rest => (∀ u < i.numThread, s.finished L i u = true) ∧
      validate s.list.key s.list.next it rest = s.valid i
  | .printed valid => (∀ u < i.numThread, s.finished L i u = true) ∧ valid = s.valid i

/-- The operations among the first `m` entries. -/
def opsTo (work : List Work) (m : Nat) : List Op := (work.take m).filterMap Work.op

structure ProgInv (L : Impl τ) (i : Input) (s : Prog τ) : Prop where
  reach : L.machine.Reachable s.list
  works : Works i.ops s.list.hist
  count : ∀ t, (opsTo (i.work t) (s.idx t)).length =
    L.calls (s.list.thread t) + if L.idle (s.list.thread t) then 0 else 1
  returned : ∀ t j, j < L.calls (s.list.thread t) → ∃ r, .ret (t, j) r ∈ s.list.hist
  absent : ∀ t, i.numThread ≤ t → L.idle (s.list.thread t) = true
  main : MainInv L i s s.main

theorem ProgInv.lt_of_created (h : ProgInv L i s) (hc : s.created i t = true) :
    t < i.numThread := by
  have hm := h.main
  unfold Prog.created at hc
  split at hc
  · rename_i k hk
    rw [hk] at hm
    exact Nat.lt_of_lt_of_le (of_decide_eq_true hc) hm
  · exact of_decide_eq_true hc

theorem opsTo_succ {work : List Work} {m : Nat} {w : Work} (hw : work[m]? = some w) :
    opsTo work (m + 1) = opsTo work m ++ w.op.toList := by
  unfold opsTo
  rw [List.take_add_one, hw, List.filterMap_append]
  cases h : w.op <;> simp [h]

/-- The operation of an entry is the next one after those of the entries before it. -/
theorem ops_of_entry {work : List Work} {m : Nat} {w : Work} {op : Op} (hw : work[m]? = some w)
    (hop : w.op = some op) : (work.filterMap Work.op)[(opsTo work m).length]? = some op := by
  have hsplit : work.filterMap Work.op =
      opsTo work m ++ op :: (work.drop (m + 1)).filterMap Work.op := by
    obtain ⟨hm, rfl⟩ := List.getElem?_eq_some_iff.mp hw
    conv_lhs => rw [← List.take_append_drop m work, List.drop_eq_getElem_cons hm]
    rw [List.filterMap_append, List.filterMap_cons_some hop]
    rfl
  rw [hsplit, List.getElem?_append_right (Nat.le_refl _), Nat.sub_self]
  rfl

/-- A step of a thread keeps what `main` has seen: a thread that it has joined takes no step. -/
theorem mainInv_threadStep (hL : L.IsSet) (h : ProgInv L i s) (hc : s.created i t = true)
    (hmain : s'.main = s.main) (hs : ThreadStep L i s s' t) : MainInv L i s' s'.main := by
  have hnot := hs.not_finished hL
  have ht := h.lt_of_created hc
  have hm := h.main
  rw [hmain]
  cases hpc : s.main <;> rw [hpc] at hm
  case create k => exact hm
  case join k =>
    intro u hu
    have hut : u ≠ t := by
      rintro rfl
      rw [hm u hu] at hnot
      cases hnot
    obtain ⟨h1, h2⟩ := hs.other hL hut
    have hfin := hm u hu
    unfold Prog.finished at hfin ⊢
    rwa [h1, h2]
  case check it rest =>
    rw [hm.1 t ht] at hnot
    cases hnot
  case printed valid =>
    rw [hm.1 t ht] at hnot
    cases hnot

theorem progInv_skip (h : ProgInv L i s) (hm : MainInv L i s' s'.main) {w : Work}
    (hw : (i.work t)[s.idx t]? = some w) (hop : w.op = none) (hlist : s'.list = s.list)
    (hidx : s'.idx = Function.update s.idx t (s.idx t + 1)) : ProgInv L i s' := by
  refine ⟨by rw [hlist]; exact h.reach, by rw [hlist]; exact h.works, fun u => ?_,
    by rw [hlist]; exact h.returned, by rw [hlist]; exact h.absent, hm⟩
  rw [hlist, hidx, ← h.count u]
  by_cases hu : u = t
  · rw [hu, Function.update_self, opsTo_succ hw, hop, Option.toList_none, List.append_nil]
  · rw [Function.update_of_ne hu]

theorem progInv_call (hL : L.IsSet) (h : ProgInv L i s) (hm : MainInv L i s' s'.main)
    (ht : t < i.numThread) {w : Work} {op : Op} (hidle : L.idle (s.list.thread t) = true)
    (hw : (i.work t)[s.idx t]? = some w) (hop : w.op = some op)
    (hstep : L.machine.step s.list (.call t op) = some s'.list)
    (hidx : s'.idx = Function.update s.idx t (s.idx t + 1)) : ProgInv L i s' := by
  obtain ⟨l, hl, hidle', hcalls, hhist⟩ := hL.call _ _ _ _ hstep
  have hcount : (opsTo (i.work t) (s.idx t)).length = L.calls (s.list.thread t) := by
    rw [h.count t, hidle]
    rfl
  refine ⟨h.reach.step _ hstep, fun u j op' hmem => ?_, fun u => ?_, fun u j hj => ?_,
    fun u hu => ?_, hm⟩
  · rw [hhist] at hmem
    rcases List.mem_append.mp hmem with hmem | hmem
    · exact h.works u j op' hmem
    · cases List.mem_singleton.mp hmem
      unfold Input.ops
      rw [if_pos ht, ← hcount]
      exact ops_of_entry hw hop
  · rw [hl, hidx]
    by_cases hu : u = t
    · rw [hu, Function.update_self, Function.update_self, opsTo_succ hw, hop, hidle', hcalls,
        List.length_append, hcount]
      rfl
    · rw [Function.update_of_ne hu, Function.update_of_ne hu]
      exact h.count u
  · have hlt : j < L.calls (s.list.thread u) := by
      rw [hl] at hj
      by_cases hu : u = t
      · rwa [hu, Function.update_self, hcalls, ← hu] at hj
      · rwa [Function.update_of_ne hu] at hj
    obtain ⟨r, hr⟩ := h.returned u j hlt
    rw [hhist]
    exact ⟨r, List.mem_append_left _ hr⟩
  · rw [hl, Function.update_of_ne (by omega)]
    exact h.absent u hu

theorem progInv_inside (hL : L.IsSet) (h : ProgInv L i s) (hm : MainInv L i s' s'.main)
    (ht : t < i.numThread) {a : Act} (ha : a.Inside t)
    (hstep : L.machine.step s.list a = some s'.list) (hidx : s'.idx = s.idx) : ProgInv L i s' := by
  obtain ⟨l, hidle, hl, hcase⟩ := hL.inside _ _ _ _ ha hstep
  have hcount := h.count t
  rw [hidle] at hcount
  have habsent : ∀ u, i.numThread ≤ u → L.idle (s'.list.thread u) = true := by
    intro u hu
    rw [hl, Function.update_of_ne (by omega)]
    exact h.absent u hu
  rcases hcase with ⟨hidle', hcalls, hhist⟩ | ⟨r, hidle', hcalls, hhist⟩
  · refine ⟨h.reach.step _ hstep, by rw [hhist]; exact h.works, fun u => ?_, fun u j hj => ?_,
      habsent, hm⟩
    · rw [hl, hidx]
      by_cases hu : u = t
      · rw [hu, Function.update_self, hidle', hcalls]
        exact hcount
      · rw [Function.update_of_ne hu]
        exact h.count u
    · rw [hhist]
      refine h.returned u j ?_
      rw [hl] at hj
      by_cases hu : u = t
      · rwa [hu, Function.update_self, hcalls, ← hu] at hj
      · rwa [Function.update_of_ne hu] at hj
  · refine ⟨h.reach.step _ hstep, fun u j op hmem => ?_, fun u => ?_, fun u j hj => ?_,
      habsent, hm⟩
    · rw [hhist] at hmem
      rcases List.mem_append.mp hmem with hmem | hmem
      · exact h.works u j op hmem
      · cases List.mem_singleton.mp hmem
    · rw [hl, hidx]
      by_cases hu : u = t
      · rw [hu, Function.update_self, hidle', hcalls]
        exact hcount
      · rw [Function.update_of_ne hu]
        exact h.count u
    · rw [hhist]
      by_cases hj' : j < L.calls (s.list.thread u)
      · obtain ⟨r', hr⟩ := h.returned u j hj'
        exact ⟨r', List.mem_append_left _ hr⟩
      · -- the operation that returns now
        rw [hl] at hj
        by_cases hu : u = t
        · rw [hu, Function.update_self, hcalls] at hj
          rw [hu] at hj' ⊢
          obtain rfl : j = L.calls (s.list.thread t) := by omega
          exact ⟨r, List.mem_append_right _ List.mem_cons_self⟩
        · rw [Function.update_of_ne hu] at hj
          exact absurd hj hj'

theorem mainInv_mainStep (h : MainInv L i s s.main) (hs : mainStep L i s = some s') :
    MainInv L i s' s'.main := by
  unfold mainStep at hs
  cases hmain : s.main with
  | create k =>
    simp only [hmain] at hs h
    cases hs
    by_cases hk : k < i.numThread
    · simp only [hk, if_true]
      exact hk
    · simp only [hk, if_false]
      exact fun u hu => absurd hu (Nat.not_lt_zero u)
  | join k =>
    simp only [hmain] at hs h
    split at hs
    · obtain ⟨hfin, hs⟩ := Option.ite_none_right_eq_some.mp hs
      cases hs
      intro u hu
      rcases Nat.lt_succ_iff_lt_or_eq.mp hu with hu | rfl
      · exact h u hu
      · exact hfin
    · rename_i hk
      cases hs
      exact ⟨fun u hu => h u (by omega), rfl⟩
  | check it rest =>
    rw [hmain] at h
    obtain ⟨hfin, hval⟩ := h
    cases rest with
    | nil =>
      simp only [hmain] at hs
      cases hs
      exact ⟨hfin, hval⟩
    | cons value rest =>
      simp only [hmain] at hs
      cases hs
      unfold validate at hval
      -- the loop stops at the end of the list, or at another key
      by_cases hit : it = TAIL
      · simp only [hit, if_true] at hval ⊢
        exact ⟨hfin, hval⟩
      · by_cases hkey : s.list.key it = value
        · simp only [hit, hkey, ne_eq, not_true_eq_false, if_false] at hval ⊢
          exact ⟨hfin, hval⟩
        · simp only [hit, hkey, ne_eq, not_false_eq_true, if_false, if_true] at hval ⊢
          exact ⟨hfin, hval⟩
  | printed valid =>
    simp only [hmain] at hs
    cases hs

theorem progInv_step (hL : L.IsSet) {a : ProgAct} (h : ProgInv L i s)
    (hs : (program L i).step s a = some s') : ProgInv L i s' := by
  rcases step_cases hs with hs | ⟨t, hc, hmain, hs⟩
  · have hm := mainInv_mainStep h.main hs
    obtain ⟨hlist, hidx⟩ := mainStep_same hs
    refine ⟨?_, ?_, ?_, ?_, ?_, hm⟩
    · rw [hlist]; exact h.reach
    · rw [hlist]; exact h.works
    · rw [hlist, hidx]; exact h.count
    · rw [hlist]; exact h.returned
    · rw [hlist]; exact h.absent
  · have hm := mainInv_threadStep hL h hc hmain hs
    have ht := h.lt_of_created hc
    cases hs with
    | skip w hidle hw hop hlist hidx => exact progInv_skip h hm hw hop hlist hidx
    | call w op hidle hw hop hlist hidx => exact progInv_call hL h hm ht hidle hw hop hlist hidx
    | inside a ha hlist hidx => exact progInv_inside hL h hm ht ha hlist hidx

theorem progInv_of_reachable (hL : L.IsSet) (hs : (program L i).Reachable s) : ProgInv L i s := by
  refine (program L i).invariant (ProgInv L i) ?_ (fun _ _ _ h hs => progInv_step hL h hs) hs
  refine ⟨Machine.Reachable.init _, fun t j op hmem => ?_, fun t => ?_, fun t j hj => ?_,
    fun t _ => (hL.initial t).1, Nat.zero_le _⟩
  · have hmem : Event.call (t, j) op ∈ L.machine.init.hist := hmem
    rw [hL.hist] at hmem
    cases hmem
  · show _ = L.calls (L.machine.init.thread t) + if L.idle (L.machine.init.thread t) then 0 else 1
    rw [(hL.initial t).1, (hL.initial t).2]
    rfl
  · have hj : j < L.calls (L.machine.init.thread t) := hj
    rw [(hL.initial t).2] at hj
    exact absurd hj (Nat.not_lt_zero j)

/-! ## Results -/

/-- The comparison succeeds when the list has exactly these keys. -/
theorem validate_iff {key : Nat → Int} {next : Nat → Nat} : ∀ (ns : List Nat) (a : Nat)
    (ks : List Int), TAIL ∉ ns → (a :: (ns ++ [TAIL])).IsChain (fun a b => next a = b) →
    (validate key next (next a) ks = true ↔ ns.map key = ks) := by
  intro ns
  induction ns with
  | nil =>
    intro a ks hns hchain
    have hnext : next a = TAIL := (List.isChain_cons_cons.mp hchain).1
    cases ks with
    | nil => simp [validate, hnext]
    | cons k ks => simp [validate, hnext]
  | cons b ns ih =>
    intro a ks hns hchain
    obtain ⟨hnext, hchain⟩ := List.isChain_cons_cons.mp hchain
    obtain ⟨hb, hns⟩ := List.ne_and_not_mem_of_not_mem_cons hns
    have hb : b ≠ TAIL := hb.symm
    rw [hnext]
    cases ks with
    | nil => simp [validate, hb]
    | cons k ks =>
      have hrest := ih b ks hns hchain
      by_cases hk : key b = k
      · simp [validate, hb, hk, hrest]
      · simp [validate, hb, hk]

/-- The thread that uses a key. -/
noncomputable def keyOwner (ops : Nat → List Op) (k : Int) : Nat :=
  open Classical in if h : ∃ t, ∃ op ∈ ops t, op.key = k then h.choose else 0

theorem keyOwner_eq {ops : Nat → List Op} (hpart : Coarse.Partitioned ops) {t : Nat} {op : Op}
    (hop : op ∈ ops t) : keyOwner ops op.key = t := by
  have h : ∃ t, ∃ op' ∈ ops t, op'.key = op.key := ⟨t, op, hop, rfl⟩
  unfold keyOwner
  rw [dif_pos h]
  obtain ⟨op', hop', hkey⟩ := h.choose_spec
  by_contra hne
  exact hpart _ _ hne op' hop' op hop hkey

/-- The keys of different threads are parts of the set. -/
theorem splits_setObject (owner : Int → Nat) : Splits setObject (fun op => owner op.key)
    fun t S => S.filter fun k => owner k = t := by
  refine ⟨fun S op t hne => ?_, fun S T op hview => ?_⟩
  · ext k
    rw [Finset.mem_filter, Finset.mem_filter]
    refine and_congr_left fun hk => Coarse.mem_apply_of_ne ?_
    rintro rfl
    exact hne hk
  · have hmem : ∀ k, owner k = owner op.key → (k ∈ S ↔ k ∈ T) := by
      intro k hk
      have := Finset.ext_iff.mp hview k
      simpa [hk] using this
    obtain ⟨hres, hkey⟩ := Coarse.apply_congr (hmem op.key rfl)
    refine ⟨hres, ?_⟩
    ext k
    rw [Finset.mem_filter, Finset.mem_filter]
    refine and_congr_left fun hk => ?_
    by_cases hne : k = op.key
    · rw [hne]
      exact hkey
    · rw [Coarse.mem_apply_of_ne hne, Coarse.mem_apply_of_ne hne]
      exact hmem k hk

theorem Input.ops_of_ge (i : Input) (ht : i.numThread ≤ t) : i.ops t = [] :=
  if_neg (Nat.not_lt.mpr ht)

/-- A set that has of each thread the keys that it leaves alone. -/
theorem Input.eq_expected (i : Input) (hpart : Coarse.Partitioned i.ops) {S : Finset Int}
    (hS : ∀ t, (S.filter fun k => keyOwner i.ops k = t) =
      (setObject.run ∅ (i.ops t)).1.filter fun k => keyOwner i.ops k = t) : S = i.expected := by
  ext k
  unfold Input.expected
  rw [Finset.mem_biUnion]
  constructor
  · intro hk
    have hmem : k ∈ (setObject.run ∅ (i.ops (keyOwner i.ops k))).1.filter fun j =>
        keyOwner i.ops j = keyOwner i.ops k := by
      rw [← hS]
      exact Finset.mem_filter.mpr ⟨hk, rfl⟩
    have hrun := (Finset.mem_filter.mp hmem).1
    refine ⟨keyOwner i.ops k, Finset.mem_range.mpr ?_, hrun⟩
    by_contra ht
    rw [i.ops_of_ge (Nat.not_lt.mp ht)] at hrun
    cases hrun
  · rintro ⟨t, -, hk⟩
    obtain ⟨op, hop, rfl⟩ := Coarse.key_of_mem_run hk
    have hmem : op.key ∈ S.filter fun k => keyOwner i.ops k = t := by
      rw [hS]
      exact Finset.mem_filter.mpr ⟨hk, keyOwner_eq hpart hop⟩
    exact (Finset.mem_filter.mp hmem).1

/-- What a thread has done when it has returned. -/
theorem ProgInv.all_returned (h : ProgInv L i s) (hfin : s.finished L i t = true)
    {j : Nat} (hj : j < (i.ops t).length) : ∃ r, .ret (t, j) r ∈ s.list.hist := by
  refine h.returned t j ?_
  obtain ⟨hidle, hlen⟩ := Bool.and_eq_true_iff.mp hfin
  have hcount := h.count t
  rw [hidle, if_pos rfl, Nat.add_zero, opsTo, List.take_of_length_le (of_decide_eq_true hlen)]
    at hcount
  unfold Input.ops at hj
  split at hj
  · rwa [← hcount]
  · exact absurd hj (Nat.not_lt_zero j)

/-- When no key is used by two threads, every call returns what it returns when its thread is alone,
and `main` prints that the list is right exactly when the keys of `result.txt` ascend and are those
that the threads leave when they are alone. -/
theorem Impl.IsSet.results (hL : L.IsSet) (hpart : Coarse.Partitioned i.ops)
    (hs : (program L i).Reachable s) :
    (∀ t j r, .ret (t, j) r ∈ s.list.hist → (setObject.run ∅ (i.ops t)).2[j]? = some r) ∧
    ∀ valid, s.main = .printed valid →
      (valid = true ↔ i.result.Pairwise (· < ·) ∧ i.result.toFinset = i.expected) := by
  have h := progInv_of_reachable hL hs
  obtain ⟨ns, ⟨order, hlin⟩, hasc, htail, hchain⟩ := hL.set _ h.reach
  obtain ⟨hret, hview⟩ := hlin.alone h.works (splits_setObject (keyOwner i.ops))
    fun t op hop => keyOwner_eq hpart hop
  refine ⟨hret, fun valid hmain => ?_⟩
  have hm := h.main
  rw [hmain] at hm
  obtain ⟨hfin, rfl⟩ := hm
  have hidle : ∀ t, L.idle (s.list.thread t) = true := by
    intro t
    rcases Nat.lt_or_ge t i.numThread with ht | ht
    · exact (Bool.and_eq_true_iff.mp (hfin t ht)).1
    · exact h.absent t ht
  have hset : (ns.map s.list.key).toFinset = i.expected := by
    refine i.eq_expected hpart fun t => hview t fun j hj => ?_
    rcases Nat.lt_or_ge t i.numThread with ht | ht
    · exact h.all_returned (hfin t ht) hj
    · rw [i.ops_of_ge ht] at hj
      exact absurd hj (Nat.not_lt_zero j)
  rw [Prog.valid, validate_iff ns HEAD i.result htail (hchain hidle), ← hset]
  constructor
  · intro hkeys
    rw [← hkeys]
    exact ⟨hasc, rfl⟩
  · rintro ⟨hasc', hmem⟩
    refine Coarse.eq_of_ascending hasc hasc' fun k => ?_
    rw [← List.mem_toFinset, ← hmem, List.mem_toFinset]

/-! ## The end -/

/-- How many steps `main` has before it. -/
def MainPc.left (i : Input) : MainPc → Nat
  | .create k => (i.numThread - k) + i.numThread + i.result.length + 3
  | .join k => (i.numThread - k) + i.result.length + 2
  | .check _ rest => rest.length + 1
  | .printed _ => 0

/-- No run has more steps than this. -/
def Input.bound (i : Input) (budget : Nat → Nat) : Nat :=
  2 * i.numThread + i.result.length + 3 +
    ∑ t ∈ Finset.range i.numThread, (i.work t).length * budget i.numThread

/-- What is left to do: the entries that the threads have not come to, and the operations in
progress. -/
def progLeft (i : Input) (cost : Nat → State τ → Nat) (budget : Nat → Nat) (s : Prog τ) : Nat :=
  s.main.left i + cost i.numThread s.list +
    ∑ t ∈ Finset.range i.numThread, ((i.work t).length - s.idx t) * budget i.numThread

theorem left_mainStep (hs : mainStep L i s = some s') : s'.main.left i < s.main.left i := by
  unfold mainStep at hs
  cases hmain : s.main with
  | create k =>
    simp only [hmain] at hs
    cases hs
    by_cases hk : k < i.numThread
    · simp only [hk, if_true, MainPc.left]
      omega
    · simp only [hk, if_false, MainPc.left]
      omega
  | join k =>
    simp only [hmain] at hs
    split at hs
    · obtain ⟨-, hs⟩ := Option.ite_none_right_eq_some.mp hs
      cases hs
      simp only [MainPc.left]
      omega
    · cases hs
      simp only [MainPc.left]
      omega
  | check it rest =>
    cases rest with
    | nil =>
      simp only [hmain] at hs
      cases hs
      simp [MainPc.left]
    | cons value rest =>
      simp only [hmain] at hs
      cases hs
      show MainPc.left i _ < (value :: rest).length + 1
      rw [List.length_cons]
      split
      · exact Nat.succ_pos _
      · split
        · exact Nat.succ_pos _
        · exact Nat.lt_succ_self _
  | printed valid =>
    simp only [hmain] at hs
    cases hs

/-- A thread that comes to its next entry has one entry less before it. -/
theorem entries_update (i : Input) (idx : Nat → Nat) (ht : t < i.numThread)
    (hlt : idx t < (i.work t).length) (b : Nat) :
    (∑ u ∈ Finset.range i.numThread,
      ((i.work u).length - Function.update idx t (idx t + 1) u) * b) + b =
    ∑ u ∈ Finset.range i.numThread, ((i.work u).length - idx u) * b := by
  have hfun : (fun u => (i.work u).length - Function.update idx t (idx t + 1) u) =
      Function.update (fun u => (i.work u).length - idx u) t ((i.work t).length - (idx t + 1)) := by
    funext u
    by_cases hu : u = t
    · rw [hu, Function.update_self, Function.update_self]
    · rw [Function.update_of_ne hu, Function.update_of_ne hu]
  have hsum := Machine.sum_update (· * b) (fun u => (i.work u).length - idx u) ht
    ((i.work t).length - (idx t + 1))
  rw [← hfun] at hsum
  have hone : ((i.work t).length - idx t) * b = ((i.work t).length - (idx t + 1)) * b + b := by
    rw [← Nat.succ_mul]
    congr 1
    omega
  dsimp only at hsum
  omega

variable {cost : Nat → State τ → Nat} {budget : Nat → Nat}

theorem progLeft_step (hE : L.Ends cost budget) {a : ProgAct} (h : ProgInv L i s)
    (hs : (program L i).step s a = some s') :
    progLeft i cost budget s' < progLeft i cost budget s := by
  unfold progLeft
  rcases step_cases hs with hs | ⟨t, hc, hmain, hs⟩
  · obtain ⟨hlist, hidx⟩ := mainStep_same hs
    have hlt := left_mainStep hs
    rw [hlist, hidx]
    omega
  · have ht := h.lt_of_created hc
    rw [hmain]
    cases hs with
    | skip w hidle hw hop hlist hidx =>
      have hsum := entries_update i s.idx ht (List.getElem?_eq_some_iff.mp hw).1
        (budget i.numThread)
      have hpos := hE.budget_pos i.numThread
      rw [hlist, hidx]
      omega
    | call w op hidle hw hop hlist hidx =>
      have hsum := entries_update i s.idx ht (List.getElem?_eq_some_iff.mp hw).1
        (budget i.numThread)
      have hpay := hE.pays_call _ _ _ _ _ h.reach ht hlist
      rw [hidx]
      omega
    | inside a ha hlist hidx =>
      have hpay := hE.pays_inside _ _ _ _ _ h.reach ht ha hlist
      rw [hidx]
      omega

/-- No run goes on forever. -/
theorem Impl.Ends.length_le (hE : L.Ends cost budget) (hL : L.IsSet) {as : List ProgAct}
    (hr : (program L i).run as = some s) : as.length ≤ i.bound budget := by
  have hle := (program L i).length_le_measure (ProgInv L i) (progLeft i cost budget)
    (fun _ _ _ h hs => ⟨progInv_step hL h hs, progLeft_step hE h hs⟩) as _ _
    (progInv_of_reachable hL (Machine.Reachable.init _)) hr
  have hinit : progLeft i cost budget (program L i).init = i.bound budget := by
    have hcost : cost i.numThread (program L i).init.list = 0 := hE.initial _
    unfold progLeft Input.bound
    rw [hcost]
    show (i.numThread - 0) + i.numThread + i.result.length + 3 + 0 + _ = _
    simp only [Nat.sub_zero, program]
    omega
  rwa [hinit] at hle

/-- While a thread has work to do, some thread can take a step. -/
theorem ProgInv.exists_step (hL : L.IsSet) (hE : L.Ends cost budget) (h : ProgInv L i s)
    (hc : ∀ u < i.numThread, s.created i u = true) (ht : t < i.numThread)
    (hfin : s.finished L i t = false) : ∃ a s', (program L i).step s a = some s' := by
  cases hidle : L.idle (s.list.thread t) with
  | false =>
    obtain ⟨u, a, list, ha, hstep⟩ := hE.progress _ _ h.reach hidle
    have hu : u < i.numThread := by
      by_contra hu
      obtain ⟨l, hl⟩ := hL.inside _ _ _ _ ha hstep
      have hidle' := h.absent u (Nat.not_lt.mp hu)
      rw [hl.busy] at hidle'
      cases hidle'
    have hmap : insideStep L s a = some { s with list := list } := by
      rw [insideStep, hstep]
      rfl
    rcases ha with rfl | ⟨addr, junk, rfl⟩
    · exact ⟨.run u, _, (if_pos (hc u hu)).trans hmap⟩
    · exact ⟨.malloc u addr junk, _, (if_pos (hc u hu)).trans hmap⟩
  | true =>
    have hlt : s.idx t < (i.work t).length := by
      by_contra hge
      unfold Prog.finished at hfin
      rw [hidle, Bool.true_and, decide_eq_false_iff_not] at hfin
      exact hfin (Nat.not_lt.mp hge)
    have hw : (i.work t)[s.idx t]? = some (i.work t)[s.idx t] := List.getElem?_eq_getElem hlt
    have hnext : (program L i).step s (.next t) = nextStep L i s t := if_pos (hc t ht)
    refine ⟨.next t, ?_⟩
    rw [hnext, nextStep, if_pos hidle, hw]
    dsimp only
    cases hop : (i.work t)[s.idx t].op with
    | none => exact ⟨_, rfl⟩
    | some op =>
      obtain ⟨list, hlist⟩ := hE.callable s.list t op hidle
        (i.inRange_of_op (List.getElem_mem hlt) hop)
      dsimp only
      rw [hlist]
      exact ⟨_, rfl⟩

/-- A run that cannot go on has come to its end. -/
theorem Impl.Ends.printed (hE : L.Ends cost budget) (hL : L.IsSet) (hs : (program L i).Reachable s)
    (hstuck : ∀ a, (program L i).step s a = none) : ∃ valid, s.main = .printed valid := by
  have h := progInv_of_reachable hL hs
  have hmain : mainStep L i s = none := hstuck .main
  unfold mainStep at hmain
  cases hpc : s.main with
  | create k =>
    simp only [hpc] at hmain
    cases hmain
  | join k =>
    simp only [hpc] at hmain
    split at hmain
    · rename_i hk
      have hfin : s.finished L i k = false := by
        cases hf : s.finished L i k with
        | false => rfl
        | true =>
          rw [hf] at hmain
          cases hmain
      have hc : ∀ u < i.numThread, s.created i u = true := by
        intro u hu
        unfold Prog.created
        rw [hpc]
        exact decide_eq_true hu
      obtain ⟨a, s', hstep⟩ := h.exists_step hL hE hc hk hfin
      rw [hstuck a] at hstep
      cases hstep
    · cases hmain
  | check it rest =>
    cases rest with
    | nil =>
      simp only [hpc] at hmain
      cases hmain
    | cons value rest =>
      simp only [hpc] at hmain
      cases hmain
  | printed valid => exact ⟨valid, rfl⟩

end

end MulticorePrac.ListSet
