import MulticorePrac.ListSet.Sequential

/-!
# Lab11: the sentinels of the three lists

What a list that finds the place of every key (`Finds`) does in a sequence of calls with any
`int` keys.  Below `INT_MAX` it is a set.  `INT_MAX` is the key of the tail: `list_add` finds it
there and adds nothing, `list_contains` always finds it, and `list_remove` takes the tail out.
-/

namespace MulticorePrac.ListSet

section
variable {exec : Nat → Heap → Call → Except Fault (Heap × Bool)} {frees : Bool} {h : Heap}
  {p : List Nat} {S : Finset Int} {c : Call}

/-! ## One call -/

section
variable {a b n : Nat} {k : Int}

/-- A key below `INT_MAX` is added to the list unless it is there. -/
theorem intact_addAt (hi : Intact h p S) (hat : At h p k a b) (hn : n ∉ p) (hlive : h.live n = true)
    (hlocked : h.locked n = false) (hkey : h.key n = k) (hk : INT_MIN ≤ k) (hk' : k < INT_MAX) :
    (addAt h a b n k).2 = (setObject.apply S (.add k)).2 ∧
      ∃ p', Intact (addAt h a b n k).1 p' (setObject.apply S (.add k)).1 ∧
        ∀ x ∈ p', x = n ∨ x ∈ p := by
  have hfound := hi.path.mem_iff hat.follows hat.below hat.above hk hk'
  unfold addAt
  by_cases hmem : k ∈ S
  · rw [if_pos (hfound.mp hmem), apply_add_of_mem hmem]
    exact ⟨rfl, p, hi, fun x hx => Or.inr hx⟩
  · have hne : h.key b ≠ k := fun he => hmem (hfound.mpr he)
    have habove := hat.above
    have hbelow := hat.below
    rw [if_neg hne, apply_add_of_notMem hmem]
    refine ⟨rfl, ?_⟩
    rw [← hkey]
    exact hi.insert hat.follows hn hlive hlocked (by omega) (by omega)

theorem intact_removeAt (frees : Bool) (hi : Intact h p S) (hat : At h p k a b)
    (hk : INT_MIN ≤ k) (hk' : k < INT_MAX) :
    (removeAt frees h a b k).2 = (setObject.apply S (.remove k)).2 ∧
      ∃ p', Intact (removeAt frees h a b k).1 p' (setObject.apply S (.remove k)).1 ∧
        (∀ x ∈ p', x ∈ p) ∧ (h.key b = k → b ∉ p') := by
  have hfound := hi.path.mem_iff hat.follows hat.below hat.above hk hk'
  unfold removeAt
  by_cases hmem : k ∈ S
  · have hkey : h.key b = k := hfound.mp hmem
    have hbt : b ≠ TAIL := by
      rintro rfl
      rw [hi.path.tail] at hkey
      omega
    obtain ⟨p', hi', hsub, hb⟩ := hi.erase hat.follows hbt
    rw [hkey] at hi'
    rw [if_neg (fun hc => hc hkey), apply_remove_of_mem hmem]
    refine ⟨rfl, p', ?_, hsub, fun _ => hb⟩
    cases frees with
    | true => exact hi'.free hb
    | false => exact hi'
  · have hne : h.key b ≠ k := fun he => hmem (hfound.mpr he)
    rw [if_pos hne, apply_remove_of_notMem hmem]
    exact ⟨rfl, p, hi, fun x hx => hx, fun he => absurd he hne⟩

end

theorem live_addAt (h : Heap) (a b n : Nat) (k : Int) : (addAt h a b n k).1.live = h.live := by
  unfold addAt
  split <;> rfl

theorem live_removeAt {a b x : Nat} {k : Int} (hx : (removeAt frees h a b k).1.live x = true) :
    h.live x = true := by
  unfold removeAt at hx
  split at hx
  · exact hx
  · cases frees with
    | false => exact hx
    | true =>
      have hx : Function.update h.live b false x = true := hx
      by_cases hxb : x = b
      · rw [hxb, Function.update_self] at hx
        cases hx
      · rwa [Function.update_of_ne hxb] at hx

/-- With keys below `INT_MAX` a list is a set, and no other address gets allocated than that of the
call. -/
theorem Finds.inRange (hf : Finds exec frees) (hi : Intact h p S) (hr : c.op.InRange)
    (ha : Allocates h c) : ∃ h' p', Returns (fun n => exec n h c) (h', (setObject.apply S c.op).2) ∧
      Intact h' p' (setObject.apply S c.op).1 ∧
      ∀ x, h'.live x = true → h.live x = true ∨ x = c.addr := by
  obtain ⟨op, addr, junk⟩ := c
  cases op with
  | add k =>
    obtain ⟨hk, hk'⟩ : INT_MIN ≤ k ∧ k < INT_MAX := hr
    obtain ⟨hlive, hnull⟩ := ha rfl
    obtain ⟨a, b, hat, hret⟩ := hf.add addr junk hi hk (by omega) hlive hnull
    obtain ⟨hres, p', hi', -⟩ := intact_addAt (hi.put hlive hnull junk) hat
      (hi.notMem_of_free hlive) (Function.update_self ..) (Function.update_self ..)
      (Function.update_self ..) hk hk'
    refine ⟨_, p', ?_, hi', fun x hx => ?_⟩
    · rw [← hres]
      exact hret
    · rw [live_addAt] at hx
      have hx : Function.update h.live addr true x = true := hx
      by_cases hxa : x = addr
      · exact Or.inr hxa
      · rw [Function.update_of_ne hxa] at hx
        exact Or.inl hx
  | remove k =>
    obtain ⟨hk, hk'⟩ : INT_MIN ≤ k ∧ k < INT_MAX := hr
    obtain ⟨a, b, hat, hret⟩ := hf.remove addr junk hi hk (by omega)
    obtain ⟨hres, p', hi', -⟩ := intact_removeAt frees hi hat hk hk'
    refine ⟨_, p', ?_, hi', fun x hx => Or.inl (live_removeAt hx)⟩
    rw [← hres]
    exact hret
  | contains k =>
    obtain ⟨hk, hk'⟩ : INT_MIN ≤ k ∧ k < INT_MAX := hr
    obtain ⟨a, b, hat, hret⟩ := hf.contains addr junk hi hk (by omega)
    have hfound := hi.path.mem_iff hat.follows hat.below hat.above hk hk'
    refine ⟨h, p, ?_, hi, fun x hx => Or.inl hx⟩
    have hres : (setObject.apply S (.contains k)).2 = decide (h.key b = k) :=
      decide_eq_decide.mpr hfound
    rw [hres]
    exact hret

theorem Finds.addMax (hf : Finds exec frees) (hi : Intact h p S) (hop : c.op = .add INT_MAX)
    (ha : Allocates h c) : ∃ h', Returns (fun n => exec n h c) (h', false) ∧ Intact h' p S := by
  obtain ⟨op, addr, junk⟩ := c
  cases hop
  obtain ⟨hlive, hnull⟩ := ha rfl
  have hi' := hi.put (k := INT_MAX) hlive hnull junk
  obtain ⟨a, b, hat, hret⟩ := hf.add addr junk hi (by decide) (Int.le_refl _) hlive hnull
  have hkey : (h.put addr junk INT_MAX).key b = INT_MAX :=
    (hi'.found_iff hat.follows hat.below hat.above (by decide) (Int.le_refl _)).mpr (Or.inl rfl)
  refine ⟨_, ?_, hi'⟩
  unfold addAt at hret
  rw [if_pos hkey] at hret
  exact hret

theorem Finds.containsMax (hf : Finds exec frees) (hi : Intact h p S)
    (hop : c.op = .contains INT_MAX) : Returns (fun n => exec n h c) (h, true) := by
  obtain ⟨op, addr, junk⟩ := c
  cases hop
  obtain ⟨a, b, hat, hret⟩ := hf.contains addr junk hi (by decide)
    (Int.le_refl INT_MAX)
  have hkey : h.key b = INT_MAX :=
    (hi.found_iff hat.follows hat.below hat.above (by decide) (Int.le_refl _)).mpr (Or.inl rfl)
  rw [hkey] at hret
  exact hret

/-- `list_remove` of `INT_MAX` takes the tail out. -/
theorem Finds.removeMax (hf : Finds exec frees) (hi : Intact h p S)
    (hop : c.op = .remove INT_MAX) : ∃ h', Returns (fun n => exec n h c) (h', true) ∧ ¬h'.Linked := by
  obtain ⟨op, addr, junk⟩ := c
  cases hop
  obtain ⟨a, b, hat, hret⟩ := hf.remove addr junk hi (by decide)
    (Int.le_refl INT_MAX)
  have hb : b = TAIL := hi.eq_tail hat.follows hat.above
  have hf := hat.follows
  rw [hb] at hret hf
  unfold removeAt at hret
  rw [if_neg (fun hc => hc hi.path.tail)] at hret
  refine ⟨_, hret, hi.cut hf ?_ ?_⟩
  · cases frees <;> exact congrArg (Function.update h.next a) hi.last
  · cases frees with
    | true =>
      show Function.update h.live TAIL false NULL = false
      rw [Function.update_of_ne (by decide)]
      exact hi.null
    | false => exact hi.null

/-! ## A sequence of calls -/

/-- Every call returns and follows no `NULL` pointer, head and tail stay linked as first and last
node, and `list_contains` tells whether the key is in `S`: whether it was added after its last
removal. -/
def Serves (exec : Nat → Heap → Call → Except Fault (Heap × Bool)) :
    Heap → Finset Int → List Call → Prop
  | _, _, [] => True
  | h, S, c :: cs => ∃ h' r, Returns (fun n => exec n h c) (h', r) ∧ h'.Linked ∧
      (∀ k, c.op = .contains k → r = decide (k ∈ S)) ∧
      Serves exec h' (setObject.apply S c.op).1 cs

/-- The allocator gives every call an address that is not allocated then. -/
def AllocOk (exec : Nat → Heap → Call → Except Fault (Heap × Bool)) : Heap → List Call → Prop
  | _, [] => True
  | h, c :: cs => Allocates h c ∧
      ∀ h' r, Returns (fun n => exec n h c) (h', r) → AllocOk exec h' cs

/-- The tail's key is not removed, and not asked for before it was added. -/
def KeepsTail (ops : List Op) : Prop :=
  .remove INT_MAX ∉ ops ∧
    ∀ l r, ops = l ++ .contains INT_MAX :: r → .add INT_MAX ∈ l

/-- `KeepsTail` for the calls that are still to come. -/
def KeepsTailFrom (S : Finset Int) (ops : List Op) : Prop :=
  .remove INT_MAX ∉ ops ∧
    ∀ l r, ops = l ++ .contains INT_MAX :: r → INT_MAX ∈ S ∨ .add INT_MAX ∈ l

theorem max_mem_apply {op : Op} (hop : op ≠ .remove INT_MAX) :
    INT_MAX ∈ (setObject.apply S op).1 ↔ INT_MAX ∈ S ∨ op = .add INT_MAX := by
  cases op with
  | add k =>
    show INT_MAX ∈ insert k S ↔ _
    rw [Finset.mem_insert, Op.add.injEq, eq_comm, or_comm]
  | remove k =>
    have hk : INT_MAX ≠ k := fun he => hop (he ▸ rfl)
    show INT_MAX ∈ S.erase k ↔ _
    simp [hk]
  | contains k =>
    show INT_MAX ∈ S ↔ _
    simp

theorem keepsTailFrom_cons {op : Op} {ops : List Op} (hop : op ≠ .remove INT_MAX) :
    KeepsTailFrom S (op :: ops) ↔
      (op = .contains INT_MAX → INT_MAX ∈ S) ∧ KeepsTailFrom (setObject.apply S op).1 ops := by
  constructor
  · rintro ⟨hno, hadd⟩
    refine ⟨fun he => ?_, fun hc => hno (List.mem_cons_of_mem _ hc), fun l r hl => ?_⟩
    · rcases hadd [] ops (by rw [he]; rfl) with h1 | h1
      · exact h1
      · cases h1
    · rw [max_mem_apply hop]
      rcases hadd (op :: l) r (by rw [hl]; rfl) with h1 | h1
      · exact Or.inl (Or.inl h1)
      · rcases List.mem_cons.mp h1 with h1 | h1
        · exact Or.inl (Or.inr h1.symm)
        · exact Or.inr h1
  · rintro ⟨hfirst, hno, hadd⟩
    refine ⟨fun hc => ?_, fun l r hl => ?_⟩
    · rcases List.mem_cons.mp hc with hc | hc
      · exact hop hc.symm
      · exact hno hc
    · cases l with
      | nil =>
        rw [List.nil_append, List.cons.injEq] at hl
        exact Or.inl (hfirst hl.1)
      | cons x l =>
        rw [List.cons_append, List.cons.injEq] at hl
        obtain ⟨rfl, hl⟩ := hl
        have := hadd l r hl
        rw [max_mem_apply hop] at this
        rcases this with (h1 | h1) | h1
        · exact Or.inl h1
        · exact Or.inr (h1 ▸ List.mem_cons_self)
        · exact Or.inr (List.mem_cons_of_mem _ h1)

/-- A key below `INT_MAX` and the key of the tail have nothing to do with each other. -/
theorem apply_erase_max {op : Op} (hr : op.InRange) :
    (setObject.apply (S.erase INT_MAX) op).1 = (setObject.apply S op).1.erase INT_MAX ∧
      (setObject.apply (S.erase INT_MAX) op).2 = (setObject.apply S op).2 := by
  obtain ⟨-, hk⟩ := hr
  have hne : op.key ≠ INT_MAX := by omega
  cases op with
  | add k =>
    have hne : k ≠ INT_MAX := hne
    exact ⟨(Finset.erase_insert_of_ne hne).symm, by simp [setObject, hne]⟩
  | remove k =>
    have hne : k ≠ INT_MAX := hne
    exact ⟨Finset.erase_right_comm, by simp [setObject, hne]⟩
  | contains k =>
    have hne : k ≠ INT_MAX := hne
    exact ⟨rfl, by simp [setObject, hne]⟩

/-- What one call does, unless it removes the key of the tail. -/
theorem Finds.call (hf : Finds exec frees) (hi : Intact h p (S.erase INT_MAX))
    (hk : INT_MIN ≤ c.op.key) (hk' : c.op.key ≤ INT_MAX) (hop : c.op ≠ .remove INT_MAX)
    (ha : Allocates h c) : ∃ h' p' r, Returns (fun n => exec n h c) (h', r) ∧
      Intact h' p' ((setObject.apply S c.op).1.erase INT_MAX) ∧
      ∀ k, c.op = .contains k → (r = true ↔ k = INT_MAX ∨ k ∈ S) := by
  by_cases hmax : c.op.key = INT_MAX
  · cases hc : c.op with
    | add k =>
      rw [hc] at hmax
      obtain rfl : k = INT_MAX := hmax
      obtain ⟨h', hret, hi'⟩ := hf.addMax hi hc ha
      refine ⟨h', p, false, hret, ?_, fun k hk => by cases hk⟩
      show Intact h' p ((insert INT_MAX S).erase INT_MAX)
      rw [Finset.erase_insert_eq_erase]
      exact hi'
    | remove k =>
      rw [hc] at hmax
      obtain rfl : k = INT_MAX := hmax
      exact absurd hc hop
    | contains k =>
      rw [hc] at hmax
      obtain rfl : k = INT_MAX := hmax
      refine ⟨h, p, true, hf.containsMax hi hc, hi, fun k hk => ?_⟩
      cases hk
      simp
  · have hr : c.op.InRange := ⟨hk, by omega⟩
    obtain ⟨h', p', hret, hi', -⟩ := hf.inRange hi hr ha
    obtain ⟨hset, hres⟩ := apply_erase_max (S := S) hr
    rw [hset] at hi'
    rw [hres] at hret
    refine ⟨h', p', _, hret, hi', fun k hc => ?_⟩
    have hne : k ≠ INT_MAX := fun he => hmax (by rw [hc]; exact he)
    rw [hc]
    show decide (k ∈ S) = true ↔ _
    simp [hne]

/-- A sequence of calls is served if and only if it leaves the key of the tail alone. -/
theorem Finds.serves_iff (hf : Finds exec frees) : ∀ (cs : List Call) (h : Heap) (p : List Nat)
    (S : Finset Int), Intact h p (S.erase INT_MAX) →
    (∀ c ∈ cs, INT_MIN ≤ c.op.key ∧ c.op.key ≤ INT_MAX) → AllocOk exec h cs →
    (Serves exec h S cs ↔ KeepsTailFrom S (cs.map Call.op)) := by
  intro cs
  induction cs with
  | nil =>
    intro h p S _ _ _
    refine ⟨fun _ => ⟨List.not_mem_nil, fun l r hl => ?_⟩, fun _ => trivial⟩
    cases l <;> cases hl
  | cons c cs ih =>
    intro h p S hi hkeys halloc
    obtain ⟨hk, hk'⟩ := hkeys c List.mem_cons_self
    by_cases hop : c.op = .remove INT_MAX
    · obtain ⟨h', hret, hcut⟩ := hf.removeMax hi hop
      constructor
      · rintro ⟨g, r, hret', hlinked, -⟩
        cases hret.inj hret'
        exact absurd hlinked hcut
      · rintro ⟨hno, -⟩
        exact absurd (by rw [List.map_cons, hop]; exact List.mem_cons_self) hno
    · obtain ⟨h', p', r, hret, hi', hres⟩ := hf.call hi hk hk' hop halloc.1
      have hih := ih h' p' _ hi' (fun d hd => hkeys d (List.mem_cons_of_mem _ hd))
        (halloc.2 h' r hret)
      rw [List.map_cons, keepsTailFrom_cons hop, ← hih]
      constructor
      · rintro ⟨g, r', hret', -, hcontains, hserves⟩
        cases hret.inj hret'
        refine ⟨fun he => ?_, hserves⟩
        have hr : r = decide (INT_MAX ∈ S) := hcontains INT_MAX he
        have htrue : r = true := (hres INT_MAX he).mpr (Or.inl rfl)
        rw [hr] at htrue
        exact of_decide_eq_true htrue
      · rintro ⟨hmax, hserves⟩
        refine ⟨h', r, hret, hi'.linked, fun k hc => ?_, hserves⟩
        have hiff : k = INT_MAX ∨ k ∈ S ↔ k ∈ S := by
          refine ⟨fun hor => ?_, Or.inr⟩
          rcases hor with rfl | hmem
          · exact hmax hc
          · exact hmem
        rw [Bool.eq_iff_iff, hres k hc, hiff, decide_eq_true_iff]

end

/-! ## The three lists -/

inductive Variant
  | coarseGrained
  | fineGrained
  | optimistic
  deriving DecidableEq, Repr

def Variant.exec : Variant → Nat → Heap → Call → Except Fault (Heap × Bool)
  | .coarseGrained => Coarse.exec
  | .fineGrained => Fine.exec
  | .optimistic => Opt.exec

theorem Variant.finds (v : Variant) : ∃ frees, Finds v.exec frees := by
  cases v with
  | coarseGrained => exact ⟨true, Coarse.finds⟩
  | fineGrained => exact ⟨true, Fine.finds⟩
  | optimistic => exact ⟨false, Opt.finds⟩

/-- For each of the lists and every sequence of calls with `int` keys on the new list: head and tail
stay linked as first and last node, no call follows a `NULL` pointer, and `list_contains` is true
exactly for the keys that were added after their last removal, if and only if `INT_MAX` is not
removed and not asked for before it was added. -/
theorem sentinels_kept_iff (v : Variant) {cs : List Call}
    (hkeys : ∀ c ∈ cs, INT_MIN ≤ c.op.key ∧ c.op.key ≤ INT_MAX)
    (halloc : AllocOk v.exec Heap.init cs) :
    Serves v.exec Heap.init ∅ cs ↔ KeepsTail (cs.map Call.op) := by
  obtain ⟨frees, hf⟩ := v.finds
  rw [hf.serves_iff cs Heap.init [HEAD, TAIL] ∅ (by rw [Finset.erase_empty]; exact intact_init)
    hkeys halloc]
  unfold KeepsTailFrom KeepsTail
  simp

/-- `INT_MIN` is a key like any other, and `INT_MAX` was added before it is asked for. -/
theorem sentinels_kept_iff_minMax :
    Serves Variant.optimistic.exec Heap.init ∅
      [⟨.add INT_MIN, 10, 0⟩, ⟨.contains INT_MIN, 0, 0⟩, ⟨.remove INT_MIN, 0, 0⟩,
        ⟨.contains INT_MIN, 0, 0⟩] ∧
    ¬Serves Variant.optimistic.exec Heap.init ∅ [⟨.contains INT_MAX, 0, 0⟩] := by
  constructor
  · refine (sentinels_kept_iff .optimistic (by decide) ?_).mpr ⟨by decide, fun l r hl => ?_⟩
    · refine ⟨fun _ => ⟨rfl, by decide⟩, fun _ _ _ => ⟨fun hc => (by cases hc), fun _ _ _ =>
        ⟨fun hc => (by cases hc), fun _ _ _ => ⟨fun hc => (by cases hc), fun _ _ _ => trivial⟩⟩⟩⟩
    · have hno : Op.contains INT_MAX ∉ [Op.add INT_MIN, .contains INT_MIN, .remove INT_MIN,
          .contains INT_MIN] := by decide
      exact absurd (by rw [show [Op.add INT_MIN, .contains INT_MIN, .remove INT_MIN,
        .contains INT_MIN] = _ from hl]; simp) hno
  · intro hs
    have halloc : AllocOk Variant.optimistic.exec Heap.init [⟨.contains INT_MAX, 0, 0⟩] :=
      ⟨fun hc => (by cases hc), fun _ _ _ => trivial⟩
    have hkeeps := (sentinels_kept_iff .optimistic (by decide) halloc).mp hs
    have := hkeeps.2 [] [] rfl
    cases this

/-- On the new list `list_remove` of `INT_MAX` takes the tail out, and the next call follows its
`NULL` pointer. -/
def Variant.LosesTail (v : Variant) : Prop :=
  ∃ h', Returns (fun n => v.exec n Heap.init ⟨.remove INT_MAX, 0, 0⟩) (h', true) ∧ ¬h'.Linked ∧
    ∀ n, v.exec (n + 1) h' ⟨.contains 5, 0, 0⟩ = .error .nullNext

theorem tail_removed : Variant.coarseGrained.LosesTail ∧ Variant.fineGrained.LosesTail ∧
    Variant.optimistic.LosesTail := by
  have hcut : ∀ g : Heap, g.next = Function.update Heap.init.next HEAD NULL →
      g.live NULL = false → ¬g.Linked := fun g hnext hnull =>
    intact_init.cut (Or.inl ⟨rfl, rfl⟩) hnext hnull
  refine ⟨?_, ?_, ?_⟩
  · refine ⟨(Heap.init.setNext HEAD NULL).free TAIL, ⟨1, fun n hn => ?_⟩, hcut _ rfl rfl,
      fun n => rfl⟩
    obtain ⟨n', rfl⟩ := Nat.exists_eq_add_of_le' hn
    rfl
  · refine ⟨((((Heap.init.hold HEAD TAIL).setNext HEAD NULL).unlock HEAD).unlock TAIL).free TAIL,
      ⟨1, fun n hn => ?_⟩, hcut _ rfl rfl, fun n => rfl⟩
    obtain ⟨n', rfl⟩ := Nat.exists_eq_add_of_le' hn
    rfl
  · refine ⟨(((Heap.init.hold HEAD TAIL).setNext HEAD NULL).unlock HEAD).unlock TAIL,
      ⟨1, fun n hn => ?_⟩, hcut _ rfl rfl, fun n => rfl⟩
    obtain ⟨n', rfl⟩ := Nat.exists_eq_add_of_le' hn
    rfl

end MulticorePrac.ListSet
