import MulticorePrac.ListSet.FineSteps
import Mathlib.Data.List.Chain

/-!
# Lab11: the fine-grained list is a set

`list_add` takes effect when it sets the `next` of the new node, `list_remove` when it sets
`prev->next`, and an operation that changes nothing when it compares `curr->key` after the
loop.  With these steps every run is matched by one of the atomic set, so its history is
linearizable; the invariant gives the shape of the list, and that every node a thread
still uses is allocated.
-/

namespace MulticorePrac.ListSet.Fine

/-- The run so far is matched by one of the atomic set that has come to `S`. -/
def St.Matches (s : St) (S : Finset Int) : Prop :=
  Tracks setObject Thread.calls Thread.phase s.hist s.thread S

section
variable {s s' : St} {p : List Nat} {S : Finset Int} {t : Nat}

theorem phase_running {pc : Pc} (hpc : (s.thread t).pc = pc)
    (h : pc ≠ .idle ∧ pc ≠ .ret ∧ pc.after = false) :
    (s.thread t).phase = .running (s.thread t).op := by
  unfold Thread.phase
  rw [hpc]
  cases pc with
  | idle => exact absurd rfl h.1
  | ret => exact absurd rfl h.2.1
  | unlockPrev | unlockCurr | free => cases h.2.2
  | _ => rfl

theorem phase_decided {pc : Pc} (hpc : (s.thread t).pc = pc) (h : pc.after = true ∨ pc = .ret) :
    (s.thread t).phase = .decided (s.thread t).op (s.thread t).ret := by
  unfold Thread.phase
  rw [hpc]
  rcases h with h | rfl
  · cases pc <;> first | rfl | cases h
  · rfl

/-- The key that `list_add` puts in was not there. -/
theorem Inv.not_mem_linkNode (h : Inv s p S) (hpc : (s.thread t).pc = .linkNode) :
    (s.thread t).op.key ∉ S := by
  have hplaced := h.placed t
  simp only [Placed, hpc] at hplaced
  obtain ⟨hf, hlt, hgt, -⟩ := hplaced
  have hrange := (h.ready t).range (by rw [hpc]; decide)
  rw [h.path.mem_iff hf hlt (le_of_lt hgt) hrange.1 hrange.2]
  exact (ne_of_lt hgt).symm

/-- The key that `list_remove` takes out was there. -/
theorem Inv.mem_unlink (h : Inv s p S) (hpc : (s.thread t).pc = .unlink) :
    (s.thread t).op.key ∈ S := by
  have hplaced := h.placed t
  simp only [Placed, hpc] at hplaced
  obtain ⟨hf, hlt, hkey, -⟩ := hplaced
  have hrange := (h.ready t).range (by rw [hpc]; decide)
  exact (h.path.mem_iff hf hlt (le_of_eq hkey.symm) hrange.1 hrange.2).mpr hkey

/-- A step of an operation. -/
theorem matches_run (h : Inv s p S) (hm : s.Matches S) (hs : runStep s t = some s') :
    ∃ p' S', Inv s' p' S' ∧ s'.Matches S' := by
  unfold runStep at hs
  cases hpc : (s.thread t).pc with
  | idle => simp [hpc] at hs
  | malloc => simp [hpc] at hs
  | lockHead =>
    simp only [hpc, State.lock] at hs
    split at hs
    · rename_i hfree
      cases hs
      exact ⟨p, S, inv_lockHead h hpc hfree,
        hm.stutter rfl (phase_running hpc (by decide)).symm⟩
    · cases hs
  | readHead =>
    simp only [hpc] at hs
    cases hs
    exact ⟨p, S, inv_readHead h hpc, hm.stutter rfl (phase_running hpc (by decide)).symm⟩
  | lockCurr =>
    simp only [hpc, State.lock] at hs
    split at hs
    · rename_i hfree
      cases hs
      exact ⟨p, S, inv_lockCurr h hpc hfree,
        hm.stutter rfl (phase_running hpc (by decide)).symm⟩
    · cases hs
  | test =>
    simp only [hpc] at hs
    cases hs
    refine ⟨p, S, inv_test h hpc, hm.stutter rfl ?_⟩
    rw [phase_running hpc (by decide)]
    split <;> rfl
  | unlockStep =>
    simp only [hpc] at hs
    cases hs
    exact ⟨p, S, inv_unlockStep h hpc, hm.stutter rfl (phase_running hpc (by decide)).symm⟩
  | readNext =>
    simp only [hpc] at hs
    cases hs
    exact ⟨p, S, inv_readNext h hpc, hm.stutter rfl (phase_running hpc (by decide)).symm⟩
  | decide =>
    simp only [hpc] at hs
    cases hs
    obtain ⟨hinv, hcalls, hphase | ⟨hphase, hset⟩⟩ := inv_decide h hpc
    · exact ⟨p, S, hinv, hm.stutter hcalls (hphase.trans (phase_running hpc (by decide)).symm)⟩
    · exact ⟨p, S, hinv,
        hm.commit (phase_running hpc (by decide)) hcalls (Prod.ext hset rfl) hphase⟩
  | linkPrev =>
    simp only [hpc] at hs
    cases hs
    exact ⟨p, S, inv_linkPrev h hpc, hm.stutter rfl (phase_running hpc (by decide)).symm⟩
  | linkNode =>
    simp only [hpc] at hs
    cases hs
    obtain ⟨p', hinv⟩ := inv_linkNode h hpc
    have hplaced := h.placed t
    simp only [Placed, hpc] at hplaced
    have happly := apply_add_of_notMem (h.not_mem_linkNode hpc)
    rw [← hplaced.2.2.2.1] at happly
    exact ⟨p', _, hinv, hm.commit (phase_running hpc (by decide)) rfl happly rfl⟩
  | readUnlink =>
    simp only [hpc] at hs
    cases hs
    exact ⟨p, S, inv_readUnlink h hpc, hm.stutter rfl (phase_running hpc (by decide)).symm⟩
  | unlink =>
    simp only [hpc] at hs
    cases hs
    obtain ⟨p', hinv⟩ := inv_unlink h hpc
    have hplaced := h.placed t
    simp only [Placed, hpc] at hplaced
    have happly := apply_remove_of_mem (h.mem_unlink hpc)
    rw [← hplaced.2.2.2.1] at happly
    exact ⟨p', _, hinv, hm.commit (phase_running hpc (by decide)) rfl happly rfl⟩
  | unlockPrev =>
    simp only [hpc] at hs
    cases hs
    exact ⟨p, S, inv_unlockPrev h hpc,
      hm.stutter rfl (phase_decided hpc (Or.inl rfl)).symm⟩
  | unlockCurr =>
    simp only [hpc] at hs
    cases hs
    refine ⟨p, S, inv_unlockCurr h hpc, hm.stutter rfl ?_⟩
    rw [phase_decided hpc (Or.inl rfl)]
    split <;> rfl
  | free =>
    simp only [hpc] at hs
    cases hs
    exact ⟨p, S, inv_free h hpc, hm.stutter rfl (phase_decided hpc (Or.inl rfl)).symm⟩
  | ret =>
    simp only [hpc] at hs
    cases hs
    exact ⟨p, S, inv_ret h hpc, hm.ret (phase_decided hpc (Or.inr rfl)) rfl rfl⟩

theorem matches_step {a : Act} (h : Inv s p S) (hm : s.Matches S) (hs : step s a = some s') :
    ∃ p' S', Inv s' p' S' ∧ s'.Matches S' := by
  cases a with
  | run t => exact matches_run h hm hs
  | call t op =>
    simp only [step, callStep] at hs
    split at hs
    · rename_i hc
      cases hs
      have hidle : (s.thread t).phase = .idle := by
        unfold Thread.phase
        rw [hc.1]
      refine ⟨p, S, inv_call h hc.1 hc.2, hm.call hidle rfl ?_⟩
      unfold Thread.phase
      dsimp only
      split <;> rename_i hpc <;> (split at hpc <;> first | cases hpc | rfl)
    · cases hs
  | malloc t addr junk =>
    simp only [step, mallocStep] at hs
    split at hs
    · rename_i hc
      cases hs
      exact ⟨p, S, inv_malloc h hc.1 hc.2.1,
        hm.stutter rfl (phase_running hc.1 (by decide)).symm⟩
    · cases hs

end

theorem inv_initial : Inv initial [HEAD, TAIL] ∅ := by
  refine ⟨Threads.start (fun _ => rfl) (fun _ => not_twoLocks rfl rfl) (fun t x hx => ?_)
    (fun _ => trivial) fun _ => .of_idle rfl rfl,
    isPath_listInit _, by decide, fun x y hf => Or.inl ?_⟩
  · rcases hx with ⟨hc, -⟩ | ⟨hc, -⟩ <;> cases hc
  · rcases hf with ⟨rfl, rfl⟩ | hf
    · rfl
    · cases hf

theorem inv_of_reachable {s : St} (hs : machine.Reachable s) :
    ∃ p S, Inv s p S ∧ s.Matches S := by
  refine machine.invariant (fun s => ∃ p S, Inv s p S ∧ s.Matches S) ?_ ?_ hs
  · exact ⟨_, _, inv_initial, Tracks.initial (fun _ => rfl) (fun _ => rfl)⟩
  · rintro s a s' ⟨p, S, h, hm⟩ hstep
    exact matches_step h hm hstep

/-! ## What the operations use -/

theorem touches_uses {l : Thread} {a : Nat} (hready : l.pc = .linkNode → l.op.needsNode = true)
    (h : l.touches = some a) : a ∈ l.uses := by
  unfold Thread.touches at h
  unfold Thread.uses
  cases hpc : l.pc <;> rw [hpc] at h <;> cases h <;> simp [hready, hpc]

section
variable {s : St} {p : List Nat} {S : Finset Int} {t : Nat}

/-- A thread uses nodes of the path, and nodes that belong to it. -/
theorem Inv.live_of_uses (h : Inv s p S) {a : Nat} (ha : a ∈ (s.thread t).uses) :
    s.live a = true := by
  have hnode : (s.thread t).pc.hasNode = true →
      a ∈ (if (s.thread t).op.needsNode then [(s.thread t).node] else []) → s.live a = true := by
    intro hpc hmem
    split at hmem
    · rename_i hn
      exact (h.owns t a (Or.inl ⟨hpc, hn, List.mem_singleton.mp hmem⟩)).1
    · cases hmem
  have hprev : (s.thread t).pc.hasPrev = true → a = (s.thread t).prev → s.live a = true :=
    fun hpc he => h.live_of_holds (t := t) (Or.inl ⟨hpc, he⟩)
  have hcurr : (s.thread t).pc.hasCurr = true → a = (s.thread t).curr → s.live a = true :=
    fun hpc he => h.live_of_holds (t := t) (Or.inr ⟨hpc, he⟩)
  unfold Thread.uses at ha
  dsimp only at ha
  cases hpc : (s.thread t).pc <;> rw [hpc] at ha hnode hprev hcurr
  case idle | malloc | ret => cases ha
  case lockHead | readHead =>
    rcases List.mem_cons.mp ha with rfl | ha
    · exact h.live _ h.path.head_mem
    · exact hnode rfl ha
  case lockCurr =>
    -- the node that is waited for is after the one that is held
    rcases List.mem_cons.mp ha with ha | ha
    · exact hprev rfl ha
    · rcases List.mem_cons.mp ha with rfl | ha
      · have hplaced := h.placed t
        simp only [Placed, hpc] at hplaced
        exact h.live _ hplaced.1.right_mem
      · exact hnode rfl ha
  case test | unlockStep | decide | linkPrev | linkNode =>
    rcases List.mem_cons.mp ha with ha | ha
    · exact hprev rfl ha
    · rcases List.mem_cons.mp ha with ha | ha
      · exact hcurr rfl ha
      · exact hnode rfl ha
  case readNext =>
    rcases List.mem_cons.mp ha with ha | ha
    · exact hcurr rfl ha
    · exact hnode rfl ha
  case readUnlink | unlink | unlockPrev =>
    rcases List.mem_cons.mp ha with ha | ha
    · exact hprev rfl ha
    · exact hcurr rfl (List.mem_singleton.mp ha)
  case unlockCurr => exact hcurr rfl (List.mem_singleton.mp ha)
  case free =>
    have hplaced := h.placed t
    simp only [Placed, hpc] at hplaced
    exact (h.owns t a (Or.inr ⟨by rw [hpc]; rfl, hplaced, List.mem_singleton.mp ha⟩)).1

theorem Inv.live_of_touches (h : Inv s p S) {a : Nat} (ha : (s.thread t).touches = some a) :
    s.live a = true := by
  refine h.live_of_uses (touches_uses (fun hpc => ?_) ha)
  have hplaced := h.placed t
  simp only [Placed, hpc] at hplaced
  rw [hplaced.2.2.2.1]
  rfl

/-- Neighbours on the path are linked. -/
theorem Inv.linked (h : Inv s p S) {a b : Nat} (hf : Follows p a b) : s.Linked a b := by
  rcases h.links a b hf with hn | ⟨t, hpc, rfl⟩
  · exact Or.inl hn
  · have hplaced := h.placed t
    simp only [Placed, hpc] at hplaced
    obtain ⟨hft, hlt, hgt, hop, hnext⟩ := hplaced
    have hkey := (h.ready t).node_key (by rw [hpc]; rfl) (by rw [hop]; rfl)
    obtain rfl := hft.right_unique h.path.asc.nodup hf
    refine Or.inr ⟨t, hpc, rfl, rfl, hnext, fun hne => ?_, by rw [hkey]; exact hgt⟩
    rw [rank_of_ne hne] at hlt
    rw [hkey]
    exact hlt

end

/-- In every reachable state the history is linearizable to the set of the keys between the
sentinels, these ascend strictly, and no thread touches, now or later, a node that is freed. -/
theorem fine_grained_linearizable {s : St} (hs : machine.Reachable s) :
    (∃ ns, Linearizable setObject s.hist (ns.map s.key).toFinset ∧
      (HEAD :: (ns ++ [TAIL])).IsChain s.Linked ∧ (ns.map s.key).Pairwise (· < ·)) ∧
    (∀ t a, (s.thread t).touches = some a → s.live a = true) ∧
    ∀ t, ∀ a ∈ (s.thread t).uses, s.live a = true := by
  obtain ⟨p, S, h, hm⟩ := inv_of_reachable hs
  refine ⟨?_, fun t a ha => h.live_of_touches ha, fun t a ha => h.live_of_uses ha⟩
  obtain ⟨ns, rfl, hasc, rfl⟩ := h.path.between
  refine ⟨ns, hm.linearizable, List.isChain_iff_forall_rel_of_append_cons_cons.mpr ?_, hasc⟩
  intro a b l r hl
  exact h.linked (follows_iff.mpr ⟨l, r, hl⟩)

/-- Two threads add and remove the key 7: thread 1 waits for the node while thread 0 links it. -/
def addRemoveRun : List Act :=
  [.call 0 (.add 7), .malloc 0 3 9, .run 0, .run 0, .run 0, .run 0, .run 0, .run 0,
    .call 1 (.remove 7), .run 0, .run 0, .run 1, .run 0, .run 1, .run 1, .run 1, .run 0,
    .run 1, .run 1, .run 1, .run 1, .run 1, .run 1, .run 1]

theorem fine_grained_linearizable_addRemove : ∃ s, machine.run addRemoveRun = some s ∧
    s.hist = [.call (0, 0) (.add 7), .call (1, 0) (.remove 7), .ret (0, 0) true, .ret (1, 0) true] ∧
    s.live 3 = false ∧ ∃ ns, Linearizable setObject s.hist (ns.map s.key).toFinset ∧
      (HEAD :: (ns ++ [TAIL])).IsChain s.Linked ∧ (ns.map s.key).Pairwise (· < ·) := by
  have hs : ((machine.run addRemoveRun).any fun s => decide (s.hist =
      [.call (0, 0) (.add 7), .call (1, 0) (.remove 7), .ret (0, 0) true, .ret (1, 0) true] ∧
      s.live 3 = false)) = true := by decide +kernel
  obtain ⟨s, hrun, hp⟩ := (Option.any_eq_true _ _).mp hs
  obtain ⟨hhist, hlive⟩ := of_decide_eq_true hp
  exact ⟨s, hrun, hhist, hlive, (fine_grained_linearizable ⟨_, hrun⟩).1⟩

end MulticorePrac.ListSet.Fine
