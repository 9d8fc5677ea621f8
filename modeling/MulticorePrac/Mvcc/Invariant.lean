import MulticorePrac.Mvcc.Model
import Mathlib.Data.List.Nodup

/-!
# The update threads on their own

`Inv rand n L s`: the invariant of a state that the update threads reach while
the GC thread does nothing; `L i` is thread `i`'s data list, newest first.

* The lists are strictly descending in version and share no node.
* The active list has one entry for each thread inside a transaction, with the
  version of that thread's last committed node: the head of its list before the
  push, the second node after it.
* `View`: what a reading thread `x` knows of every list.  The node it is to read
  from `i` (`snapNode`) is in the list.  If `i` was active at the snapshot, the
  read view has its version; if not, it is the newest node older than `x`'s
  version.  At most one node newer than it can have a version below `x`'s
  (`second`), since every transaction that starts later draws a larger version.
-/

namespace MulticorePrac.Mvcc

abbrev DataList := List (Nat × Data)

/-- Strictly descending in version. -/
def Desc (l : DataList) : Prop := l.Pairwise fun x y => y.2.version < x.2.version

/-- Snapshot taken and not yet off the active list. -/
def InTx (l : Local) : Prop := l.pc ≠ .idle

/-- Snapshot taken and nothing pushed yet. -/
def Reading (l : Local) : Prop := l.pc ≠ .idle ∧ l.pc ≠ .leave

instance (l : Local) : Decidable (Reading l) := inferInstanceAs (Decidable (_ ∧ _))

theorem Reading.inTx {l : Local} (h : Reading l) : InTx l := h.1

/-- The node thread `x` is to read from thread `i`. -/
def snapNode (rand : Nat → Nat) (log : List Event) (x i : Nat) : Nat × Data :=
  lastCommitted rand (atSnapshot log x) i

/-- What `UpdateAB` looks up in the read view for thread `i`. -/
def target (l : Local) (i : Nat) : Option Nat :=
  (l.rv.find? fun e => e.id == i).map ActiveThread.version

/-- The local variables at each place of the loop, for the lists `L`. -/
def PcOk (rand : Nat → Nat) (n : Nat) (L : Nat → DataList) (log : List Event) (x : Nat)
    (l : Local) : Prop :=
  match l.pc with
  | .idle => True
  | .pick => True
  | .loadHead => l.i < n ∧ l.targetVersion = target l l.i
  | .test node => l.i < n ∧ l.targetVersion = target l l.i ∧
      ∃ a d, node = some a ∧ (a, d) ∈ L l.i ∧ (snapNode rand log x l.i).2.version ≤ d.version
  | .next a => l.i < n ∧ l.targetVersion = target l l.i ∧
      ∃ d, (a, d) ∈ L l.i ∧ (snapNode rand log x l.i).2.version < d.version
  | .copyX => l.i < n ∧ l.dataI = (snapNode rand log x l.i).2
  | .push => l.i < n ∧ l.dataI = (snapNode rand log x l.i).2
  | .leave => True
  | .fault _ => False

structure View (rand : Nat → Nat) (n : Nat) (L : Nat → DataList) (s : St) (x : Nat) : Prop where
  own : ∀ y ∈ L x, y.2.version < (s.thr x).myVersion
  mem : ∀ i < n, snapNode rand s.log x i ∈ L i
  inRv : ∀ e ∈ (s.thr x).rv, e.id < n → e.version = (snapNode rand s.log x e.id).2.version
  notRv : ∀ i < n, (∀ e ∈ (s.thr x).rv, e.id ≠ i) →
    (snapNode rand s.log x i).2.version < (s.thr x).myVersion ∧
      ∀ y ∈ L i, (snapNode rand s.log x i).2.version < y.2.version →
        (s.thr x).myVersion < y.2.version
  second : ∀ i < n, ∀ y ∈ L i, ∀ z ∈ L i, (snapNode rand s.log x i).2.version < y.2.version →
    y.2.version < z.2.version → (s.thr x).myVersion < z.2.version
  running : ∀ i < n, Reading (s.thr i) → (s.thr x).myVersion < (s.thr i).myVersion ∨
    ((L i).head? = some (snapNode rand s.log x i) ∧ ∃ e ∈ (s.thr x).rv, e.id = i)

structure Inv (rand : Nat → Nat) (n : Nat) (L : Nat → DataList) (s : St) : Prop where
  chain : ∀ i < n, Chain s.heap (s.head i) (L i)
  desc : ∀ i < n, Desc (L i)
  bound : ∀ i < n, ∀ y ∈ L i, y.1 < s.fresh ∧ y.2.version < s.execOrder
  owner : ∀ i < n, ∀ j < n, ∀ y ∈ L i, ∀ z ∈ L j, y.1 = z.1 → i = j ∧ y = z
  newest : ∀ i < n, (L i).head? = some (lastPushed rand s.log i)
  committed : ∀ i < n, (s.thr i).pc ≠ .leave → (L i).head? = some (lastCommitted rand s.log i)
  pushed : ∀ i < n, (s.thr i).pc = .leave →
    ∃ p rest, L i = p :: lastCommitted rand s.log i :: rest
  ids : (s.active.map fun e => e.data.id).Nodup
  ptrs : (s.active.map ActiveNode.ptr).Nodup
  entry : ∀ e ∈ s.active, e.ptr < s.fresh ∧ e.data.id < n ∧ InTx (s.thr e.data.id) ∧
    e.ptr = (s.thr e.data.id).myNode ∧
    e.data.version = (lastCommitted rand s.log e.data.id).2.version
  listed : ∀ x < n, InTx (s.thr x) → ∃ e ∈ s.active, e.data.id = x
  drawn : ∀ x < n, InTx (s.thr x) → (s.thr x).myVersion < s.execOrder
  pcOk : ∀ x < n, PcOk rand n L s.log x (s.thr x)
  view : ∀ x < n, Reading (s.thr x) → View rand n L s x
  reads : ReadsSnapshot rand s.log

/-! ## Descending lists -/

theorem desc_head_ge {l : DataList} {h y : Nat × Data} (hd : Desc l) (hh : l.head? = some h)
    (hy : y ∈ l) : y.2.version ≤ h.2.version := by
  cases l with
  | nil => simp at hy
  | cons z l =>
    simp only [List.head?_cons, Option.some.injEq] at hh
    subst hh
    rcases List.mem_cons.mp hy with rfl | hy
    · exact Nat.le_refl _
    · exact Nat.le_of_lt ((List.pairwise_cons.mp hd).1 y hy)

/-- In a descending list the version tells the node. -/
theorem desc_inj {l : DataList} {y z : Nat × Data} (hd : Desc l) (hy : y ∈ l) (hz : z ∈ l)
    (he : y.2.version = z.2.version) : y = z := by
  induction l with
  | nil => simp at hy
  | cons w l ih =>
    obtain ⟨h1, h2⟩ := List.pairwise_cons.mp hd
    rcases List.mem_cons.mp hy with rfl | hy'
    · rcases List.mem_cons.mp hz with rfl | hz'
      · rfl
      · have := h1 z hz'; omega
    · rcases List.mem_cons.mp hz with rfl | hz'
      · have := h1 y hy'; omega
      · exact ih h2 hy' hz'

/-- The node after one that is newer than `c` is not older than `c`. -/
theorem desc_split {l : DataList} {a : Nat} {d : Data} {c : Nat × Data} (hd : Desc l)
    (ha : (a, d) ∈ l) (hm : c ∈ l) (hlt : c.2.version < d.version) :
    ∃ l1 y l2, l = l1 ++ (a, d) :: y :: l2 ∧ c.2.version ≤ y.2.version := by
  obtain ⟨l1, l2, rfl⟩ := List.append_of_mem ha
  have hc2 : c ∈ l2 := by
    rcases List.mem_append.mp hm with h1 | h1
    · have := (List.pairwise_append.mp hd).2.2 c h1 (a, d) List.mem_cons_self
      simp only at this
      omega
    · rcases List.mem_cons.mp h1 with rfl | h1
      · simp at hlt
      · exact h1
  cases l2 with
  | nil => simp at hc2
  | cons y l2 =>
    have hd2 : Desc (y :: l2) := (List.pairwise_cons.mp (List.pairwise_append.mp hd).2.1).2
    exact ⟨l1, y, l2, rfl, desc_head_ge hd2 rfl hc2⟩

/-- Nothing lies strictly between two neighbours. -/
theorem desc_adjacent {l1 l2 : DataList} {x y z : Nat × Data} (hd : Desc (l1 ++ x :: y :: l2))
    (hz : z ∈ l1 ++ x :: y :: l2) (h1 : y.2.version ≤ z.2.version)
    (h2 : z.2.version < x.2.version) : z = y := by
  obtain ⟨_, hd2, hd3⟩ := List.pairwise_append.mp hd
  rcases List.mem_append.mp hz with hz | hz
  · have := hd3 z hz x List.mem_cons_self
    omega
  · rcases List.mem_cons.mp hz with rfl | hz
    · omega
    · rcases List.mem_cons.mp hz with rfl | hz
      · rfl
      · have := (List.pairwise_cons.mp (List.pairwise_cons.mp hd2).2).1 z hz
        omega

/-! ## The log -/

section
variable (rand : Nat → Nat) (l : List Event) (x y i : Nat) (node : Nat × Data)

@[simp] theorem lastPushed_snapshot : lastPushed rand (.snapshot x :: l) i = lastPushed rand l i := rfl
@[simp] theorem lastPushed_read : lastPushed rand (.read x y node :: l) i = lastPushed rand l i := rfl
@[simp] theorem lastPushed_erase : lastPushed rand (.erase x :: l) i = lastPushed rand l i := rfl
@[simp] theorem lastPushed_push :
    lastPushed rand (.push x node :: l) i = if x = i then node else lastPushed rand l i := rfl

@[simp] theorem lastCommitted_snapshot :
    lastCommitted rand (.snapshot x :: l) i = lastCommitted rand l i := rfl
@[simp] theorem lastCommitted_read :
    lastCommitted rand (.read x y node :: l) i = lastCommitted rand l i := rfl
@[simp] theorem lastCommitted_push :
    lastCommitted rand (.push x node :: l) i = lastCommitted rand l i := rfl
@[simp] theorem lastCommitted_erase : lastCommitted rand (.erase x :: l) i =
    if x = i then lastPushed rand l i else lastCommitted rand l i := rfl

@[simp] theorem snapNode_snapshot : snapNode rand (.snapshot y :: l) x i =
    if y = x then lastCommitted rand l i else snapNode rand l x i := by
  unfold snapNode
  rw [atSnapshot]
  split <;> rfl
@[simp] theorem snapNode_read {z : Nat} :
    snapNode rand (.read y z node :: l) x i = snapNode rand l x i := rfl
@[simp] theorem snapNode_push : snapNode rand (.push y node :: l) x i = snapNode rand l x i := rfl
@[simp] theorem snapNode_erase : snapNode rand (.erase y :: l) x i = snapNode rand l x i := rfl

end

/-! ## Consequences of the invariant -/

section
variable {rand : Nat → Nat} {n : Nat} {L : Nat → DataList} {s : St}

theorem head?_mem {l : DataList} {y : Nat × Data} (h : l.head? = some y) : y ∈ l :=
  List.mem_of_mem_head? (by rw [h]; rfl)

theorem Inv.committed_mem (h : Inv rand n L s) {i : Nat} (hi : i < n) :
    lastCommitted rand s.log i ∈ L i := by
  by_cases hl : (s.thr i).pc = .leave
  · obtain ⟨p, rest, he⟩ := h.pushed i hi hl
    rw [he]
    simp
  · exact head?_mem (h.committed i hi hl)

/-- At most one node is newer than the last committed one. -/
theorem Inv.committed_second (h : Inv rand n L s) {i : Nat} (hi : i < n) {y z : Nat × Data}
    (hy : y ∈ L i) (hz : z ∈ L i)
    (h1 : (lastCommitted rand s.log i).2.version < y.2.version) : ¬ y.2.version < z.2.version := by
  intro h2
  have hd := h.desc i hi
  by_cases hl : (s.thr i).pc = .leave
  · obtain ⟨p, rest, he⟩ := h.pushed i hi hl
    rw [he] at hd hy hz
    have hzp := desc_head_ge hd rfl hz
    rcases List.mem_cons.mp hy with rfl | hy'
    · omega
    · have := desc_head_ge (List.pairwise_cons.mp hd).2 rfl hy'
      omega
  · have := desc_head_ge hd (h.committed i hi hl) hy
    omega

/-- The newest node of a list whose thread has not pushed is the committed one. -/
theorem Inv.head_of_not_leave (h : Inv rand n L s) {i : Nat} (hi : i < n)
    (hl : (s.thr i).pc ≠ .leave) : ∃ rest, L i = lastCommitted rand s.log i :: rest := by
  have hc := h.committed i hi hl
  cases hL : L i with
  | nil => rw [hL] at hc; simp at hc
  | cons y rest =>
    rw [hL] at hc
    simp only [List.head?_cons, Option.some.injEq] at hc
    exact ⟨rest, by rw [hc]⟩

theorem target_some {l : Local} {i : Nat} {v : Nat} (h : target l i = some v) :
    ∃ e ∈ l.rv, e.id = i ∧ e.version = v := by
  unfold target at h
  cases hf : l.rv.find? (fun e => e.id == i) with
  | none => rw [hf] at h; simp at h
  | some e =>
    rw [hf] at h
    simp only [Option.map_some, Option.some.injEq] at h
    have hid := List.find?_some hf
    exact ⟨e, List.mem_of_find?_eq_some hf, by simpa using hid, h⟩

theorem target_none {l : Local} {i : Nat} (h : target l i = none) : ∀ e ∈ l.rv, e.id ≠ i := by
  unfold target at h
  rw [Option.map_eq_none_iff, List.find?_eq_none] at h
  intro e he hid
  exact h e he (by simpa using hid)

/-- What one look at a node of the list decides: the snapshot node is recognised, and a newer
node is passed over. -/
theorem View.test_iff {x i : Nat} (v : View rand n L s x) (hi : i < n) {d : Data}
    (hd : ∃ a, (a, d) ∈ L i) (hle : (snapNode rand s.log x i).2.version ≤ d.version) :
    (∀ w, target (s.thr x) i = some w →
      w ≤ d.version ∧ (d.version = w ↔ d.version = (snapNode rand s.log x i).2.version)) ∧
    (target (s.thr x) i = none →
      (d.version < (s.thr x).myVersion ↔ d.version = (snapNode rand s.log x i).2.version)) := by
  obtain ⟨a, ha⟩ := hd
  constructor
  · intro w hw
    obtain ⟨e, he, rfl, rfl⟩ := target_some hw
    rw [v.inRv e he hi]
    exact ⟨hle, Iff.rfl⟩
  · intro hn
    obtain ⟨h1, h2⟩ := v.notRv i hi (target_none hn)
    constructor
    · intro hlt
      apply Classical.byContradiction
      intro hne
      have := h2 (a, d) ha (by simp only; omega)
      simp only at this
      omega
    · intro he; omega

end

end MulticorePrac.Mvcc
