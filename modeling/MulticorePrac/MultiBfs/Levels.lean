import MulticorePrac.MultiBfs.Progress
import MulticorePrac.MultiBfs.Refine

/-!
# The search is exact

What the search reports follows from what the team does: a house is reported with the
level at which it was found, and a house that is checked is reported, or is about to
be.  `reports_exact`: every value passed to `result_.Update` is the distance of the
house, and when `Run` returns, every house that can be reached was reported or has its
bit from another search.
-/

namespace MulticorePrac.MultiBfs

open House (Bits BFSResult Problem gPow2 fullVisitBits visitOrder getLsbD_gPow2
  getLsbD_fullVisitBits)

/-! ## What was reported -/

/-- The house that a worker is reporting. -/
def InHand (p : Problem) (start : Nat) (updates : List (Nat × Nat)) (l : Worker) : Prop :=
  match l.pc with
  | .mark => l.v ≠ start
  | .update => l.v ≠ start ∧ l.v ∈ p.houses ∧ l.v ∈ l.next
  | .setBits => l.v ≠ start ∧ l.v ∈ p.houses ∧ ∃ d, (l.v, d) ∈ updates
  | _ => True

structure Found (p : Problem) (start : Nat) (s : St) : Prop where
  origin : s.checkMap start = true
  tidy : ∀ w, Tidy (s.worker w)
  hand : ∀ w, InHand p start s.updates (s.worker w)
  logged : ∀ v ∈ p.houses, v ≠ start → s.checkMap v = true →
    (∃ d, (v, d) ∈ s.updates) ∨ ∃ w, (s.worker w).pc = .update ∧ (s.worker w).v = v
  range : ∀ j, s.visitBits.getLsbD j = true →
    j < p.houses.length ∧ j ≠ p.context.houseIndexMap start
  bits : ∀ j, s.visitBits.getLsbD j = true → s.otherBits.getLsbD j = true ∨
    ∃ e ∈ s.updates, p.context.houseIndexMap e.1 = j
  sound : ∀ e ∈ s.updates, e.1 ∈ p.houses ∧ At p.graph start e.2 e.1
  result : s.result = s.updates.foldr (fun e r => r.update e.2) .empty

section
variable {p : Problem} {start n D : Nat} {s s' : St} {w : Nat} {l : Worker}

theorem InHand.here {updates : List (Nat × Nat)} {a : Pc} (h : InHand p start updates l)
    (hpc : l.pc = a) : InHand p start updates (l.goto a) := by
  rw [← hpc]
  exact h

theorem InHand.mono {u u' : List (Nat × Nat)} (h : InHand p start u l) (hu : ∀ e ∈ u, e ∈ u') :
    InHand p start u' l := by
  unfold InHand at h ⊢
  cases hpc : l.pc <;> simp only [hpc] at h ⊢
  case mark | update => exact h
  case setBits =>
    obtain ⟨hs, hh, d, hd⟩ := h
    exact ⟨hs, hh, d, hu _ hd⟩

/-- What is checked was reported, or is with a worker that is about to report it, also after
worker `w` has moved without being one of those. -/
theorem Found.logged_update (h : Found p start s) (hpc : (s.worker w).pc ≠ .update) {v : Nat}
    (hv : v ∈ p.houses) (hvs : v ≠ start) (hc : s.checkMap v = true) (l : Worker) :
    (∃ d, (v, d) ∈ s.updates) ∨ ∃ u, (Function.update s.worker w l u).pc = .update ∧
      (Function.update s.worker w l u).v = v := by
  refine (h.logged v hv hvs hc).imp_right ?_
  rintro ⟨u, hu, huv⟩
  have huw : u ≠ w := by
    rintro rfl
    exact hpc hu
  exact ⟨u, by rw [Function.update_of_ne huw]; exact ⟨hu, huv⟩⟩

/-- A step of a worker that is not about to report, and reports nothing. -/
theorem Found.move (h : Found p start s) (hl : s'.worker = Function.update s.worker w l)
    (hc : s'.checkMap = s.checkMap) (hv : s'.visitBits = s.visitBits)
    (ho : s'.otherBits = s.otherBits) (hu : s'.updates = s.updates) (hr : s'.result = s.result)
    (hpc : (s.worker w).pc ≠ .update) (ht : Tidy l) (hh : InHand p start s.updates l) :
    Found p start s' where
  origin := by rw [hc]; exact h.origin
  tidy := by
    rw [hl]
    exact forall_update (P := fun _ l => Tidy l) ht fun u _ => h.tidy u
  hand := by
    rw [hl, hu]
    exact forall_update (P := fun _ l => InHand p start s.updates l) hh fun u _ => h.hand u
  logged := by
    rw [hl, hu, hc]
    exact fun v hv hvs hcv => h.logged_update hpc hv hvs hcv l
  range := by rw [hv]; exact h.range
  bits := by rw [hv, ho, hu]; exact h.bits
  sound := by rw [hu]; exact h.sound
  result := by rw [hr, hu]; exact h.result

theorem found_mark (h : Found p start s) (hpc : (s.worker w).pc = .mark) :
    Found p start { s.move w { s.worker w with
      pc := if p.context.houseBitmap (s.worker w).v then Pc.update else Pc.visit
      next := (s.worker w).next ++ [(s.worker w).v] } with
      checkMap := Function.update s.checkMap (s.worker w).v true } := by
  have hvs : (s.worker w).v ≠ start := (h.hand w).here hpc
  refine ⟨?_, ?_, ?_, fun x hx hxs hc => ?_, h.range, h.bits, h.sound, h.result⟩
  · exact (Function.update_of_ne hvs.symm ..).trans h.origin
  · refine forall_update (P := fun _ l => Tidy l) ?_ fun u _ => h.tidy u
    cases hb : p.context.houseBitmap (s.worker w).v <;> trivial
  · refine forall_update (P := fun _ l => InHand p start s.updates l) ?_ fun u _ => h.hand u
    cases hb : p.context.houseBitmap (s.worker w).v with
    | false => trivial
    | true => exact ⟨hvs, p.mem_houseBitmap.mp hb, by simp⟩
  · by_cases hxv : x = (s.worker w).v
    · subst hxv
      refine Or.inr ⟨w, ?_⟩
      simp [St.move, p.mem_houseBitmap.mpr hx]
    · have hc' : s.checkMap x = true := by
        dsimp only at hc
        rwa [Function.update_of_ne hxv] at hc
      exact h.logged_update (by rw [hpc]; decide) hx hxs hc' _

theorem found_update (h : Found p start s) (hpc : (s.worker w).pc = .update)
    (hat : At p.graph start ((s.worker w).dist + 1) (s.worker w).v) :
    Found p start { s.move w ((s.worker w).goto .setBits) with
      result := s.result.update ((s.worker w).dist + 1)
      updates := ((s.worker w).v, (s.worker w).dist + 1) :: s.updates } := by
  obtain ⟨hvs, hv, -⟩ : (s.worker w).v ≠ start ∧ (s.worker w).v ∈ p.houses ∧
      (s.worker w).v ∈ (s.worker w).next := (h.hand w).here hpc
  refine ⟨h.origin, ?_, ?_, fun x hx hxs hc => ?_, h.range, fun j hj => ?_, fun e he => ?_, ?_⟩
  · exact forall_update (P := fun _ l => Tidy l) trivial fun u _ => h.tidy u
  · refine forall_update (P := fun _ l => InHand p start _ l) ?_ fun u _ => ?_
    · exact ⟨hvs, hv, _, List.mem_cons_self⟩
    · exact (h.hand u).mono fun e he => List.mem_cons_of_mem _ he
  · rcases h.logged x hx hxs hc with ⟨d, hd⟩ | ⟨u, hu, hux⟩
    · exact Or.inl ⟨d, List.mem_cons_of_mem _ hd⟩
    · by_cases huw : u = w
      · rw [← hux, huw]
        exact Or.inl ⟨_, List.mem_cons_self⟩
      · refine Or.inr ⟨u, ?_⟩
        dsimp only [St.move]
        rw [Function.update_of_ne huw]
        exact ⟨hu, hux⟩
  · refine (h.bits j hj).imp_right ?_
    rintro ⟨e, he, hej⟩
    exact ⟨e, List.mem_cons_of_mem _ he, hej⟩
  · rcases List.mem_cons.mp he with rfl | he
    · exact ⟨hv, hat⟩
    · exact h.sound e he
  · exact congrArg (fun r => r.update ((s.worker w).dist + 1)) h.result

theorem index_inj {u v : Nat} (hu : u ∈ p.houses) (hv : v ∈ p.houses)
    (h : p.context.houseIndexMap u = p.context.houseIndexMap v) : u = v := by
  rw [← p.houseOf_index hu, h, p.houseOf_index hv]

theorem getLsbD_or_gPow2 {b : Bits} {i j : Nat} (h : (b ||| gPow2 i).getLsbD j = true) :
    b.getLsbD j = true ∨ i = j := by
  rw [BitVec.getLsbD_or, getLsbD_gPow2, Bool.or_eq_true, Bool.and_eq_true] at h
  exact h.imp_right fun hij => of_decide_eq_true hij.2

theorem found_setBits (h : Found p start s) (hstart : start ∈ p.houses)
    (hpc : (s.worker w).pc = .setBits) :
    Found p start { s.move w ((s.worker w).goto .visit) with
      visitBits := s.visitBits ||| gPow2 (p.context.houseIndexMap (s.worker w).v) } := by
  obtain ⟨hvs, hv, d, hd⟩ : (s.worker w).v ≠ start ∧ (s.worker w).v ∈ p.houses ∧
      ∃ d, ((s.worker w).v, d) ∈ s.updates := (h.hand w).here hpc
  refine ⟨h.origin, ?_, ?_, fun x hx hxs hc => ?_, fun j hj => ?_, fun j hj => ?_, h.sound,
    h.result⟩
  · exact forall_update (P := fun _ l => Tidy l) trivial fun u _ => h.tidy u
  · exact forall_update (P := fun _ l => InHand p start s.updates l) trivial fun u _ => h.hand u
  · exact h.logged_update (by rw [hpc]; decide) hx hxs hc _
  · rcases getLsbD_or_gPow2 hj with hj | rfl
    · exact h.range j hj
    · exact ⟨p.index_lt hv, fun hc => hvs (index_inj hv hstart hc)⟩
  · rcases getLsbD_or_gPow2 hj with hj | rfl
    · exact h.bits j hj
    · exact Or.inr ⟨_, hd, rfl⟩

theorem found_worker (h : Found p start s) (hstart : start ∈ p.houses)
    (hat : (s.worker w).pc = .update → At p.graph start ((s.worker w).dist + 1) (s.worker w).v)
    (hs : beginWorkAt p start n s w = some s') : Found p start s' := by
  have ht := h.tidy w
  unfold Tidy at ht
  cases hpc : (s.worker w).pc <;>
    simp only [beginWorkAt, idleStep, levelStep, giveStep, visitStep, barrierStep, leaveStep, hpc]
      at hs ht
  case mark =>
    cases hs
    exact found_mark h hpc
  case update =>
    cases hs
    exact found_update h hpc (hat hpc)
  case setBits =>
    cases hs
    exact found_setBits h hstart hpc
  case visit =>
    have hne : (s.worker w).pc ≠ .update := by rw [hpc]; decide
    split at hs
    · next v todo htodo =>
      split at hs <;> cases hs
      · exact h.move rfl rfl rfl rfl rfl rfl hne trivial trivial
      · next hc =>
        have hvs : v ≠ start := by
          rintro rfl
          exact hc h.origin
        exact h.move rfl rfl rfl rfl rfl rfl hne trivial hvs
    · cases hs
      exact h.move rfl rfl rfl rfl rfl rfl hne trivial trivial
    · next htodo hcur =>
      cases hs
      exact h.move rfl rfl rfl rfl rfl rfl hne ⟨hcur, htodo⟩ trivial
  case giveTest =>
    split at hs <;> cases hs
    · next hgo =>
      refine h.move rfl rfl rfl rfl rfl rfl (by rw [hpc]; decide) ?_ trivial
      show (s.worker w).cur ≠ []
      exact List.ne_nil_of_length_pos (Nat.lt_trans Nat.zero_lt_one hgo.2)
    · exact h.move rfl rfl rfl rfl rfl rfl (by rw [hpc]; decide) trivial trivial
  all_goals
    repeat' split at hs
  all_goals first
    | (cases hs
       exact h.move rfl rfl rfl rfl rfl rfl (by rw [hpc]; decide) (by first | exact ht | trivial)
         trivial)
    | cases hs

/-! ## The bits only grow -/

theorem stopped_or {b : Bits} {j : Nat} (hj : j < p.houses.length)
    (hjs : j ≠ p.context.houseIndexMap start)
    (h : b = fullVisitBits (p.context.houseIndexMap start) p.houses.length) :
    b ||| gPow2 j = fullVisitBits (p.context.houseIndexMap start) p.houses.length := by
  rw [h]
  apply BitVec.eq_of_getLsbD_eq
  intro i hi
  rw [BitVec.getLsbD_or, getLsbD_fullVisitBits _ _ hi, getLsbD_gPow2]
  by_cases hij : j = i
  · subst hij
    simp [hj, hjs]
  · simp [hij]

theorem visitBits_beginWorkAt (hs : beginWorkAt p start n s w = some s') :
    s'.visitBits = s.visitBits ∨ ((s.worker w).pc = .setBits ∧
      s'.visitBits = s.visitBits ||| gPow2 (p.context.houseIndexMap (s.worker w).v)) := by
  cases hpc : (s.worker w).pc <;>
    simp only [beginWorkAt, idleStep, levelStep, giveStep, visitStep, barrierStep, leaveStep, hpc]
      at hs
  case setBits =>
    cases hs
    exact Or.inr ⟨rfl, rfl⟩
  all_goals
    left
    repeat' split at hs
  all_goals first | (cases hs; rfl) | cases hs

theorem Found.stopped_worker (h : Found p start s) (hstart : start ∈ p.houses)
    (hs : beginWorkAt p start n s w = some s') (hstop : Stopped p start s) :
    Stopped p start s' := by
  unfold Stopped at hstop ⊢
  rcases visitBits_beginWorkAt hs with heq | ⟨hpc, heq⟩
  · rw [heq]
    exact hstop
  · obtain ⟨hvs, hv, -⟩ : (s.worker w).v ≠ start ∧ (s.worker w).v ∈ p.houses ∧
        ∃ d, ((s.worker w).v, d) ∈ s.updates := (h.hand w).here hpc
    rw [heq]
    exact stopped_or (p.index_lt hv) (fun hc => hvs (index_inj hv hstart hc)) hstop

/-! ## Every reachable state -/

theorem mem_visitOrder {u v : Nat} : v ∈ nbrs p u ↔ v ∈ p.context.adjlist u := by
  unfold nbrs visitOrder
  rw [if_pos (p.length_adjlist u), List.mem_reverse]

theorem nbrs_spec (u v : Nat) (h : v ∈ nbrs p u) : u = v ∨ p.graph.Adj u v :=
  p.mem_adjlist (mem_visitOrder.mp h)

theorem nbrs_of_adj (u v : Nat) (h : p.graph.Adj u v) : v ∈ nbrs p u :=
  mem_visitOrder.mpr (p.adjlist_of_adj h)

theorem Refines.inv {t t' : Team Nat} (h : Refines p t t')
    (ht : TeamInv p.graph start (nbrs p) t) : TeamInv p.graph start (nbrs p) t' := by
  rcases h with rfl | hstep
  · exact ht
  · exact hstep.inv nbrs_spec nbrs_of_adj ht

/-- A worker that is about to report has found the house at the next level. -/
theorem at_update (hf : Found p start s) (h : Inv n D s.sync s.worker)
    (ht : TeamInv p.graph start (nbrs p) (view p start D s)) (hpc : (s.worker w).pc = .update) :
    At p.graph start ((s.worker w).dist + 1) (s.worker w).v := by
  have hdist : (s.worker w).dist = D := ((h.ok w).here hpc).2
  have hrole := ht.roles w
  have hw : (view p start D s).role w =
      .work (s.worker w).cur (s.worker w).todo (s.worker w).next := by
    simp [view, role, hpc]
  rw [hw] at hrole
  obtain ⟨-, -, hnext⟩ : (s.worker w).v ≠ start ∧ (s.worker w).v ∈ p.houses ∧
    (s.worker w).v ∈ (s.worker w).next := (hf.hand w).here hpc
  rw [hdist]
  exact hrole.2.2 _ hnext

/-- The workers that `Run` has joined. -/
def Joined (n : Nat) (s : St) : Prop :=
  match s.mainPc with
  | .create _ => True
  | .join k => ∀ w < k, (s.worker w).pc = .finished
  | .returned => ∀ w < n, (s.worker w).pc = .finished

/-- The team is at the level of the barrier. -/
def AtLevel (p : Problem) (start n : Nat) (s : St) : Prop :=
  ∃ D, Inv n D s.sync s.worker ∧ TeamInv p.graph start (nbrs p) (view p start D s)

def Searching (p : Problem) (start n : Nat) (s : St) : Prop :=
  match s.mainPc with
  | .create _ => Waiting n s ∧ s.checkMap = Function.update (fun _ => false) start true
  | _ => AtLevel p start n s

structure SearchInv (p : Problem) (start n : Nat) (s : St) : Prop where
  found : Found p start s
  joined : Joined n s
  searching : Searching p start n s

theorem view_begin (h : Waiting n s)
    (hc : s.checkMap = Function.update (fun _ => false) start true) :
    view p start 0 (s.begin start n) = Team.initial start (Stopped p start s) := by
  have hnext : ∀ w, (s.worker w).next = [] := by
    intro w
    rcases h.2 w with hl | ⟨hl, -⟩
    · rw [hl]
      rfl
    · rw [hl]
      rfl
  unfold view Team.initial
  rw [show (s.begin start n).checkMap = s.checkMap from rfl, hc]
  congr 1
  funext w
  show role 0 (s.begin start n).sync w (s.worker w) = _
  rw [role_waits (h.pc w), hnext]
  by_cases hw : w = 0
  · subst hw
    simp [St.begin]
  · simp [St.begin, hw, h.1, Sync.initial]

theorem joined_worker (h : Joined n s) (hs : beginWorkAt p start n s w = some s') :
    Joined n s' := by
  obtain ⟨hm, l, hl⟩ := frame_beginWorkAt hs
  -- a worker that has ended makes no step
  have hne : (s.worker w).pc ≠ .finished := by
    intro hpc
    simp [beginWorkAt, hpc] at hs
  have hkeep : ∀ u, (s.worker u).pc = .finished → (s'.worker u).pc = .finished := by
    intro u hu
    rw [hl, Function.update_of_ne (by rintro rfl; exact hne hu)]
    exact hu
  unfold Joined at h ⊢
  rw [hm]
  cases hmain : s.mainPc <;> rw [hmain] at h
  · trivial
  · exact fun u hu => hkeep u (h u hu)
  · exact fun u hu => hkeep u (h u hu)

theorem checkMap_waiting (h : Waiting n s) (hs : beginWorkAt p start n s w = some s') :
    s'.checkMap = s.checkMap := by
  rcases h.pc w with hpc | hpc <;> simp only [beginWorkAt, idleStep, hpc] at hs
  · split at hs <;> cases hs <;> rfl
  · split at hs <;> cases hs <;> rfl

theorem atLevel_worker (h : AtLevel p start n s) (hf : Found p start s) (hstart : start ∈ p.houses)
    (hn : n ≤ 64) (hw : w < n) (hs : beginWorkAt p start n s w = some s') :
    Found p start s' ∧ AtLevel p start n s' := by
  obtain ⟨D, hinv, hteam⟩ := h
  have hstep := refines_worker hinv (hf.tidy w) hw (hf.stopped_worker hstart hs) hs
  refine ⟨found_worker hf hstart (at_update hf hinv hteam) hs, _, inv_worker hinv hn hw hs, ?_⟩
  exact hstep.inv hteam

theorem searchInv_worker (h : SearchInv p start n s) (hstart : start ∈ p.houses) (hn : n ≤ 64)
    (hw : w < n) (hs : beginWorkAt p start n s w = some s') : SearchInv p start n s' := by
  have hjoined := joined_worker h.joined hs
  have hsearch := h.searching
  have hm := (frame_beginWorkAt hs).1
  unfold Searching at hsearch
  cases hmain : s.mainPc <;> rw [hmain] at hm hsearch
  case create k =>
    obtain ⟨hwait, hcheck⟩ := hsearch
    have hpc : (s.worker w).pc ≠ .update := by
      intro hc
      rcases hwait.pc w with hpc | hpc <;> rw [hc] at hpc <;> cases hpc
    refine ⟨found_worker h.found hstart (fun hc => absurd hc hpc) hs, hjoined, ?_⟩
    unfold Searching
    rw [hm]
    exact ⟨waiting_worker hwait hw hs, (checkMap_waiting hwait hs).trans hcheck⟩
  all_goals
    obtain ⟨hfound, hlevel⟩ := atLevel_worker hsearch h.found hstart hn hw hs
    refine ⟨hfound, hjoined, ?_⟩
    unfold Searching
    rw [hm]
    exact hlevel

/-- `Run` reads and writes nothing of what was found. -/
theorem Found.congr (h : Found p start s) (hl : s'.worker = s.worker)
    (hc : s'.checkMap = s.checkMap) (hv : s'.visitBits = s.visitBits)
    (ho : s'.otherBits = s.otherBits) (hu : s'.updates = s.updates)
    (hr : s'.result = s.result) : Found p start s' := by
  obtain ⟨h1, h2, h3, h4, h5, h6, h7, h8⟩ := h
  constructor <;> simp only [hl, hc, hv, ho, hu, hr] <;> assumption

theorem searchInv_run (h : SearchInv p start n s) (hn : 0 < n) (hs : run start n s = some s') :
    SearchInv p start n s' := by
  have hsearch := h.searching
  have hjoined := h.joined
  unfold Searching at hsearch
  unfold Joined at hjoined
  unfold run at hs
  cases hmain : s.mainPc with
  | create k =>
    rw [hmain] at hsearch
    simp only [hmain] at hs
    obtain ⟨hwait, hcheck⟩ := hsearch
    split at hs <;> cases hs
    · exact ⟨h.found.congr rfl rfl rfl rfl rfl rfl, trivial, waiting_create hwait k, hcheck⟩
    · refine ⟨h.found.congr rfl rfl rfl rfl rfl rfl, fun w hw => absurd hw (by omega), 0,
        inv_begin hwait hn, ?_⟩
      rw [view_begin hwait hcheck]
      exact teamInv_initial
  | join k =>
    rw [hmain] at hsearch hjoined
    simp only [hmain] at hs
    split at hs
    · split at hs <;> cases hs
      next hpc =>
      refine ⟨h.found.congr rfl rfl rfl rfl rfl rfl, fun w hw => ?_, hsearch⟩
      by_cases hwk : w = k
      · rw [hwk]
        exact hpc
      · exact hjoined w (by omega)
    · next hk =>
      cases hs
      exact ⟨h.found.congr rfl rfl rfl rfl rfl rfl, fun w hw => hjoined w (by omega), hsearch⟩
  | returned => simp [hmain] at hs

/-- Another search sets a bit. -/
theorem searchInv_other {j : Nat} (h : SearchInv p start n s) (hj : j < p.houses.length)
    (hjs : j ≠ p.context.houseIndexMap start) : SearchInv p start n
      { s with visitBits := s.visitBits ||| gPow2 j, otherBits := s.otherBits ||| gPow2 j } := by
  obtain ⟨hf, hjoined, hsearch⟩ := h
  refine ⟨⟨hf.origin, hf.tidy, hf.hand, hf.logged, fun i hi => ?_, fun i hi => ?_, hf.sound,
    hf.result⟩, hjoined, ?_⟩
  · rcases getLsbD_or_gPow2 hi with hi | rfl
    · exact hf.range i hi
    · exact ⟨hj, hjs⟩
  · show (s.otherBits ||| gPow2 j).getLsbD i = true ∨ _
    rcases getLsbD_or_gPow2 hi with hi | rfl
    · refine (hf.bits i hi).imp_left fun ho => ?_
      rw [BitVec.getLsbD_or, ho, Bool.true_or]
    · have hj64 : j < 64 := Nat.lt_of_lt_of_le hj p.houses_le
      left
      rw [BitVec.getLsbD_or, getLsbD_gPow2]
      simp [hj64]
  · unfold Searching at hsearch ⊢
    dsimp only
    cases hmain : s.mainPc <;> rw [hmain] at hsearch
    case create => exact hsearch
    all_goals
      obtain ⟨D, hinv, hteam⟩ := hsearch
      exact ⟨D, hinv, hteam.halt (stopped_or hj hjs)⟩

theorem searchInv_initial (p : Problem) (start n : Nat) : SearchInv p start n (initial start) where
  found := {
    origin := by simp [initial]
    tidy := fun _ => ⟨rfl, rfl⟩
    hand := fun _ => trivial
    logged := fun v _ hvs hc => by simp [initial, hvs] at hc
    range := fun j hj => by simp [initial] at hj
    bits := fun j hj => by simp [initial] at hj
    sound := nofun
    result := rfl }
  joined := trivial
  searching := ⟨⟨rfl, fun _ => Or.inl rfl⟩, rfl⟩

theorem searchInv_of_reachable (hstart : start ∈ p.houses) (hn : 0 < n) (hn' : n ≤ 64)
    (hr : (search p start n).Reachable s) : SearchInv p start n s := by
  refine (search p start n).invariant (SearchInv p start n) (searchInv_initial p start n) ?_ hr
  intro s a s' h hs
  cases a with
  | worker w =>
    simp only [search, step] at hs
    split at hs
    · next hw => exact searchInv_worker h hstart hn' hw.1 hs
    · cases hs
  | main => exact searchInv_run h hn hs
  | other j =>
    simp only [search, step] at hs
    split at hs <;> cases hs
    next hj => exact searchInv_other h hj.1 hj.2

/-! ## The answer -/

/-- When `Run` returns, every house that can be reached was reported, or has its bit from another
search. -/
theorem SearchInv.all_reported (h : SearchInv p start n s) (hstart : start ∈ p.houses)
    (hret : s.mainPc = .returned) {v : Nat} (hv : v ∈ p.houses) (hvs : v ≠ start)
    (hreach : p.graph.Reachable start v) :
    (∃ d, (v, d) ∈ s.updates) ∨ s.otherBits.getLsbD (p.context.houseIndexMap v) = true := by
  obtain ⟨hf, hjoined, hsearch⟩ := h
  unfold Joined at hjoined
  unfold Searching at hsearch
  rw [hret] at hjoined hsearch
  obtain ⟨D, hinv, hteam⟩ := hsearch
  by_cases hstop : Stopped p start s
  · -- the bit of the house is set, and it is its own
    have hbit : s.visitBits.getLsbD (p.context.houseIndexMap v) = true := by
      have hlt := p.index_lt hv
      have hne : p.context.houseIndexMap v ≠ p.context.houseIndexMap start :=
        fun hc => hvs (index_inj hv hstart hc)
      rw [show s.visitBits = _ from hstop,
        getLsbD_fullVisitBits _ _ (Nat.lt_of_lt_of_le hlt p.houses_le)]
      simp [hlt, hne]
    rcases hf.bits _ hbit with ho | ⟨e, he, hidx⟩
    · exact Or.inr ho
    · have hev : e.1 = v := index_inj (hf.sound e he).1 hv hidx
      exact Or.inl ⟨e.2, hev ▸ he⟩
  · have hpc : ∀ w, (s.worker w).pc = .finished ∨ ((s.worker w).pc = .idle ∧
        s.sync.isBusy w = false) := by
      intro w
      by_cases hw : w < n
      · exact Or.inl (hjoined w hw)
      · exact Or.inr (hinv.absent w (Nat.le_of_not_lt hw))
    have hout : ∀ w, ∃ left, (view p start D s).role w = .out left := by
      intro w
      rcases hpc w with hp | ⟨hp, hb⟩
      · exact ⟨_, by simp [view, role, hp]; rfl⟩
      · exact ⟨_, (role_waits (Or.inl hp)).trans (if_neg (by rw [hb]; decide))⟩
    have hc : s.checkMap v = true := hteam.all_checked nbrs_of_adj hstop hout hreach
    rcases hf.logged v hv hvs hc with hd | ⟨w, hw, -⟩
    · exact Or.inl hd
    · rcases hpc w with hp | ⟨hp, -⟩ <;> rw [hp] at hw <;> cases hw

end

/-- **The search is exact**: what is passed to `result_.Update` is the distance of a house, and
when `Run` returns, every house that can be reached was reported, or has its bit in `visit_bits_`
from another search. -/
theorem reports_exact {p : Problem} {start n : Nat} (hstart : start ∈ p.houses) (hn : 0 < n)
    (hn' : n ≤ 64) {s : St} (hr : (search p start n).Reachable s) :
    (∀ e ∈ s.updates, e.1 ∈ p.houses ∧ p.graph.Reachable start e.1 ∧
      p.graph.dist start e.1 = e.2) ∧
    s.result = s.updates.foldr (fun e r => r.update e.2) .empty ∧
    (s.mainPc = .returned → ∀ v ∈ p.houses, v ≠ start → p.graph.Reachable start v →
      (∃ d, (v, d) ∈ s.updates) ∨ s.otherBits.getLsbD (p.context.houseIndexMap v) = true) := by
  have h := searchInv_of_reachable hstart hn hn' hr
  refine ⟨fun e he => ?_, h.found.result, fun hret v hv hvs hreach => ?_⟩
  · obtain ⟨hhouse, hat⟩ := h.found.sound e he
    exact ⟨hhouse, at_iff.mp hat⟩
  · exact h.all_reported hstart hret hv hvs hreach

/-- Worker 0 gives vertex 2 to worker 1, which finds the house; all workers end and are joined. -/
def returningRun : List Act :=
  List.replicate 2 .main ++ List.replicate 43 (.worker 0) ++ List.replicate 32 (.worker 1) ++
    List.replicate 15 (.worker 0) ++ List.replicate 2 (.worker 1) ++ List.replicate 3 .main

theorem reports_exact_returningRun :
    ∃ s, (search forkProblem 1 2).run returningRun = some s ∧ s.mainPc = .returned ∧
      (4, 2) ∈ s.updates ∧ forkProblem.graph.dist 1 4 = 2 ∧
      ((∃ d, (4, d) ∈ s.updates) ∨
        s.otherBits.getLsbD (forkProblem.context.houseIndexMap 4) = true) := by
  have hs : (((search forkProblem 1 2).run returningRun).any fun s =>
      decide (s.mainPc = .returned ∧ (4, 2) ∈ s.updates)) = true := by
    decide +kernel
  obtain ⟨s, hr, h0⟩ := (Option.any_eq_true _ _).mp hs
  obtain ⟨hret, hmem⟩ := of_decide_eq_true h0
  obtain ⟨hexact, -, hall⟩ := reports_exact (p := forkProblem) (n := 2) (by decide) (by decide)
    (by decide) ⟨returningRun, hr⟩
  obtain ⟨hhouse, hreach, hdist⟩ := hexact _ hmem
  exact ⟨s, hr, hret, hmem, hdist, hall hret 4 hhouse (by decide) hreach⟩

end MulticorePrac.MultiBfs
