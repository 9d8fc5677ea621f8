import MulticorePrac.Lib.Team
import MulticorePrac.MultiBfs.BarrierSteps

/-!
# The workers search level by level

`view` is what the workers are doing at level `D` of the barrier, as a team: which
vertices of the level each of them holds, and which of the next one it has found.
`refines_worker`: a step of a worker is a step of the team, or changes nothing for it.
The barrier is what makes the end of a level one step of the team: when its flag is
cleared everyone who had to sign the level has done so.
-/

namespace MulticorePrac.MultiBfs

open House (Problem fullVisitBits visitOrder)

/-! ## The team -/

/-- What worker `w` has to do with level `D`.  A worker that waits holds the vertex it was given
once it is busy; a worker that gives one away holds it until the other one is busy. -/
def role (D : Nat) (y : Sync) (w : Nat) (l : Worker) : Role Nat :=
  match l.pc with
  | .idle | .idleFree => if y.isBusy w then .ready (l.next ++ [y.startVertex w]) else .out l.next
  | .load => .ready (l.next ++ [y.startVertex w])
  | .levelTest => .ready l.next
  | .giveTest | .giveLock | .giveCheck | .giveBreak | .giveDec | .giveUnlock | .visit | .update
  | .setBits => .work l.cur l.todo l.next
  | .giveScan | .giveParam | .giveFull | .giveBusy => .work (l.cur ++ [l.lastVertex]) l.todo l.next
  | .mark => .mark l.v l.cur l.todo l.next
  | .doneLock | .doneLoad | .doneStore => .done l.next
  | .doneUnlock | .waitDone | .waitFull | .waitFullAgain | .passLock | .passTest | .resetDone
  | .copyFull | .setFlag | .clearFlag
  | .passUnlock => if l.dist = D then .done l.next else .ready l.next
  | .leaveLock | .leaveFull | .leaveNext | .leaveBusy | .leaveFree | .leaveUnlock | .finished
  | .fault => .out l.next

/-- The search stops when all houses are visited. -/
def Stopped (p : Problem) (start : Nat) (s : St) : Prop :=
  s.visitBits = fullVisitBits (p.context.houseIndexMap start) p.houses.length

def view (p : Problem) (start D : Nat) (s : St) : Team Nat where
  level := D
  check := s.checkMap
  stop := Stopped p start s
  role w := role D s.sync w (s.worker w)

def nbrs (p : Problem) (v : Nat) : List Nat := visitOrder (p.context.adjlist v)

/-- Between two levels the lists of the current one are empty; a vertex that is to be given away
is there. -/
def Tidy (l : Worker) : Prop :=
  match l.pc with
  | .giveTest | .giveBreak | .giveScan | .giveParam | .giveFull | .giveBusy | .giveUnlock | .visit
  | .mark | .update | .setBits | .fault => True
  | .giveLock | .giveCheck | .giveDec => l.cur ≠ []
  | _ => l.cur = [] ∧ l.todo = []

section
variable {p : Problem} {start n D : Nat} {s s' : St} {w : Nat} {l : Worker} {y y' : Sync}
  {r : Role Nat}

@[simp] theorem sync_move : (s.move w l).sync = s.sync := rfl

@[simp] theorem sync_moveSync : (s.moveSync w l y).sync = y := rfl

theorem role_congr (hb : y'.isBusy w = y.isBusy w) (hv : y'.startVertex w = y.startVertex w) :
    role D y' w l = role D y w l := by
  unfold role
  rw [hb, hv]

/-- Worker `w` moves to the role `r`, the others are where they were. -/
theorem view_turn (hc : s'.checkMap = s.checkMap) (hb : s'.visitBits = s.visitBits)
    (hl : s'.worker = Function.update s.worker w l)
    (hother : ∀ u, u ≠ w → role D s'.sync u (s.worker u) = role D s.sync u (s.worker u))
    (hr : role D s'.sync w l = r) :
    view p start D s' = { view p start D s with
      role := Function.update (view p start D s).role w r } := by
  unfold view Stopped
  rw [hc, hb, hl]
  congr 1
  funext u
  by_cases hu : u = w
  · subst hu
    rw [Function.update_self, Function.update_self, hr]
  · rw [Function.update_of_ne hu, Function.update_of_ne hu, hother u hu]

/-- A step of the team, or none. -/
def Refines (p : Problem) (t t' : Team Nat) : Prop := t' = t ∨ TeamStep (nbrs p) t t'

theorem refines_turn (hc : s'.checkMap = s.checkMap) (hb : s'.visitBits = s.visitBits)
    (hl : s'.worker = Function.update s.worker w l)
    (hother : ∀ u, u ≠ w → role D s'.sync u (s.worker u) = role D s.sync u (s.worker u))
    (hr : role D s'.sync w l = r)
    (hstep : TeamStep (nbrs p) (view p start D s)
      { view p start D s with role := Function.update (view p start D s).role w r }) :
    Refines p (view p start D s) (view p start D s') := by
  right
  rw [view_turn hc hb hl hother hr]
  exact hstep

theorem refines_stay (hc : s'.checkMap = s.checkMap) (hb : s'.visitBits = s.visitBits)
    (hl : s'.worker = Function.update s.worker w l)
    (hother : ∀ u, u ≠ w → role D s'.sync u (s.worker u) = role D s.sync u (s.worker u))
    (hr : role D s'.sync w l = role D s.sync w (s.worker w)) :
    Refines p (view p start D s) (view p start D s') := by
  left
  rw [view_turn hc hb hl hother hr]
  exact congrArg (fun f => { view p start D s with role := f })
    (Function.update_eq_self w (view p start D s).role)

/-- The role of a worker that waits for work. -/
theorem role_waits (hpc : l.pc = .idle ∨ l.pc = .idleFree) : role D y w l =
    if y.isBusy w then .ready (l.next ++ [y.startVertex w]) else .out l.next := by
  unfold role
  rcases hpc with hpc | hpc
  · rw [hpc]
  · rw [hpc]

/-! ## One part of the code after the other -/

theorem refines_idle (h : Inv n D s.sync s.worker) (hs : idleStep n s w = some s') :
    Refines p (view p start D s) (view p start D s') := by
  unfold idleStep at hs
  cases hpc : (s.worker w).pc <;> simp only [hpc] at hs
  case idle =>
    have hrole : role D s.sync w (s.worker w) = _ := role_waits (Or.inl hpc)
    split at hs <;> cases hs
    · next hb =>
      exact refines_stay rfl rfl rfl (fun _ _ => rfl) (by rw [hrole, if_pos hb]; rfl)
    · exact refines_stay rfl rfl rfl (fun _ _ => rfl) (by rw [hrole]; rfl)
  case idleFree =>
    have hrole : role D s.sync w (s.worker w) = _ := role_waits (Or.inr hpc)
    split at hs <;> cases hs
    · next hn =>
      refine refines_stay rfl rfl rfl (fun _ _ => rfl) ?_
      rw [hrole, if_neg (by rw [h.all_free hn w]; decide)]
      rfl
    · exact refines_stay rfl rfl rfl (fun _ _ => rfl) (by rw [hrole]; rfl)
  case load =>
    cases hs
    exact refines_stay rfl rfl rfl (fun _ _ => rfl) (by simp [role, hpc])
  all_goals cases hs

theorem refines_level (ht : Tidy (s.worker w)) (hpc : (s.worker w).pc = .levelTest)
    (hs : levelStep p start s w = some s') :
    Refines p (view p start D s) (view p start D s') := by
  unfold levelStep at hs
  dsimp only at hs
  have hready : (view p start D s).role w = .ready (s.worker w).next := by simp [view, role, hpc]
  obtain ⟨hcur, htodo⟩ : (s.worker w).cur = [] ∧ (s.worker w).todo = [] := by
    unfold Tidy at ht
    rw [hpc] at ht
    exact ht
  split at hs <;> cases hs
  · next hgo =>
    exact refines_turn rfl rfl rfl (fun _ _ => rfl) (by simp [role, hcur, htodo])
      (.enter _ w _ hready hgo.1)
  · next hgo =>
    refine refines_turn rfl rfl rfl (fun _ _ => rfl) rfl (.quit _ w _ hready ?_)
    by_contra hc
    rw [not_or] at hc
    exact hgo hc

/-- The vertex goes over when the other worker is busy. -/
theorem refines_giveBusy (h : Inv n D s.sync s.worker) (hpc : (s.worker w).pc = .giveBusy) :
    Refines p (view p start D s) (view p start D (s.moveSync w ((s.worker w).goto .giveUnlock)
      { s.sync with isBusy := Function.update s.sync.isBusy (s.worker w).i true })) := by
  obtain ⟨hb, -, -, hfree, hvertex, -⟩ : s.sync.isBusy w = true ∧ (s.worker w).dist = D ∧
    (s.worker w).i < n ∧ s.sync.isBusy (s.worker w).i = false ∧
    s.sync.startVertex (s.worker w).i = (s.worker w).lastVertex ∧
    s.sync.startDist (s.worker w).i = D := (h.ok w).here hpc
  obtain ⟨hne, hi⟩ := h.target_waits (by rw [hpc]; rfl) hb hfree
  have hview : view p start D (s.moveSync w ((s.worker w).goto .giveUnlock)
        { s.sync with isBusy := Function.update s.sync.isBusy (s.worker w).i true }) =
      { view p start D s with
        role := Function.update (Function.update (view p start D s).role (s.worker w).i
          (.ready ((s.worker (s.worker w).i).next ++ [(s.worker w).lastVertex]))) w
          (.work (s.worker w).cur (s.worker w).todo (s.worker w).next) } := by
    unfold view
    congr 1
    funext u
    dsimp only [St.moveSync]
    by_cases huw : u = w
    · subst huw
      rw [Function.update_self, Function.update_self]
      rfl
    · rw [Function.update_of_ne huw, Function.update_of_ne huw]
      by_cases hui : u = (s.worker w).i
      · rw [hui, Function.update_self, role_waits hi, if_pos (Function.update_self ..), hvertex]
      · rw [Function.update_of_ne hui]
        exact role_congr (Function.update_of_ne hui ..) rfl
  right
  rw [hview]
  refine .give (view p start D s) w _ _ _ _ _ _ hne.symm ?_ ?_
  · simp [view, role, hpc]
  · exact (role_waits hi).trans (if_neg (by rw [hfree]; decide))

theorem refines_give (h : Inv n D s.sync s.worker) (ht : Tidy (s.worker w)) (hw : w < n)
    (hs : giveStep n s w = some s') : Refines p (view p start D s) (view p start D s') := by
  unfold giveStep at hs
  unfold Tidy at ht
  cases hpc : (s.worker w).pc <;> have hok := (h.ok w).here hpc <;> simp only [hpc] at hs ht
  case giveParam =>
    cases hs
    obtain ⟨hb, -, -, hfree⟩ : s.sync.isBusy w = true ∧ (s.worker w).dist = D ∧
      (s.worker w).i < n ∧ s.sync.isBusy (s.worker w).i = false := hok
    refine refines_stay rfl rfl rfl (fun u _ => ?_) (by simp [role, hpc, Worker.goto])
    by_cases hu : u = (s.worker w).i
    · -- the parameters of a free worker say nothing yet
      obtain ⟨-, hi⟩ := h.target_waits (by rw [hpc]; rfl) hb hfree
      rw [hu]
      rcases hi with hi | hi <;> simp [role, hi, hfree]
    · exact role_congr rfl (Function.update_of_ne hu ..)
  case giveBusy =>
    cases hs
    exact refines_giveBusy h hpc
  case giveScan =>
    rw [if_pos (h.scan_lt hw hpc)] at hs
    split at hs <;> cases hs
    · exact refines_stay rfl rfl rfl (fun _ _ => rfl) (by simp [role, hpc])
    · exact refines_stay rfl rfl rfl (fun _ _ => rfl) (by simp [role, hpc, Worker.goto])
  case giveDec =>
    cases hs
    refine refines_stay rfl rfl rfl (fun _ _ => rfl) ?_
    simp only [role, hpc]
    rw [List.getLastD_eq_getLast?, List.getLast?_eq_getLast_of_ne_nil ht, Option.getD_some,
      List.dropLast_append_getLast ht]
  case giveTest | giveLock | giveCheck =>
    split at hs <;> cases hs <;>
      exact refines_stay rfl rfl rfl (fun _ _ => rfl) (by simp [role, hpc, Worker.goto])
  case giveBreak | giveFull | giveUnlock =>
    cases hs
    exact refines_stay rfl rfl rfl (fun _ _ => rfl) (by simp [role, hpc, Worker.goto])
  all_goals cases hs

/-- The mark: the vertex is checked and is one of the next level. -/
theorem refines_mark (hpc : (s.worker w).pc = .mark) (hl : l.pc = .update ∨ l.pc = .visit)
    (hcur : l.cur = (s.worker w).cur) (htodo : l.todo = (s.worker w).todo)
    (hnext : l.next = (s.worker w).next ++ [(s.worker w).v]) :
    Refines p (view p start D s) (view p start D { s.move w l with
      checkMap := Function.update s.checkMap (s.worker w).v true }) := by
  have hrole : role D s.sync w l =
      .work (s.worker w).cur (s.worker w).todo ((s.worker w).next ++ [(s.worker w).v]) := by
    unfold role
    rcases hl with hl | hl <;> rw [hl, hcur, htodo, hnext]
  have hmove : view p start D (s.move w l) = { view p start D s with
      role := Function.update (view p start D s).role w (.work (s.worker w).cur (s.worker w).todo
        ((s.worker w).next ++ [(s.worker w).v])) } :=
    view_turn rfl rfl rfl (fun _ _ => rfl) hrole
  have hview : view p start D { s.move w l with
        checkMap := Function.update s.checkMap (s.worker w).v true } =
      { view p start D s with
        check := Function.update (view p start D s).check (s.worker w).v true
        role := Function.update (view p start D s).role w (.work (s.worker w).cur (s.worker w).todo
          ((s.worker w).next ++ [(s.worker w).v])) } :=
    congrArg (fun t => { t with check := Function.update s.checkMap (s.worker w).v true }) hmove
  right
  rw [hview]
  refine .mark (view p start D s) w _ _ _ _ ?_
  simp [view, role, hpc]

theorem refines_visit (hstop : Stopped p start s → Stopped p start s')
    (hs : visitStep p s w = some s') : Refines p (view p start D s) (view p start D s') := by
  unfold visitStep at hs
  cases hpc : (s.worker w).pc <;> simp only [hpc] at hs
  case visit =>
    have hwork : (view p start D s).role w =
        .work (s.worker w).cur (s.worker w).todo (s.worker w).next := by
      simp [view, role, hpc]
    split at hs
    · next v todo htodo =>
      rw [htodo] at hwork
      split at hs <;> cases hs
      · next hc => exact refines_turn rfl rfl rfl (fun _ _ => rfl) rfl (.skip _ w v _ _ _ hwork hc)
      · next hc =>
        exact refines_turn rfl rfl rfl (fun _ _ => rfl) rfl
          (.test _ w v _ _ _ hwork (Bool.eq_false_of_not_eq_true hc))
    · next v cur htodo hcur =>
      cases hs
      rw [htodo, hcur] at hwork
      exact refines_turn rfl rfl rfl (fun _ _ => rfl) rfl (.take _ w v _ _ hwork)
    · next htodo hcur =>
      cases hs
      rw [htodo, hcur] at hwork
      exact refines_turn rfl rfl rfl (fun _ _ => rfl) rfl (.finish _ w _ hwork)
  case mark =>
    cases hs
    refine refines_mark hpc ?_ rfl rfl rfl
    dsimp only
    cases p.context.houseBitmap (s.worker w).v
    · exact Or.inr rfl
    · exact Or.inl rfl
  case update =>
    cases hs
    exact refines_stay rfl rfl rfl (fun _ _ => rfl) (by simp [role, hpc, Worker.goto])
  case setBits =>
    have hrole : role D s.sync w ((s.worker w).goto .visit) = role D s.sync w (s.worker w) := by
      simp [role, hpc, Worker.goto]
    have hview : view p start D s' = { view p start D s with stop := Stopped p start s' } := by
      cases hs
      unfold view
      congr 1
      funext u
      exact forall_update (P := fun u l => role D s.sync u l = role D s.sync u (s.worker u)) hrole
        (fun _ _ => rfl) u
    right
    rw [hview]
    exact .halt _ _ hstop
  all_goals cases hs

/-! ## The barrier -/

theorem role_signed (hs : l.pc.signed = true) :
    role D y w l = if l.dist = D then .done l.next else .ready l.next := by
  unfold role
  cases hpc : l.pc <;> rw [hpc] at hs <;> first | rfl | cases hs

/-- At the barrier a worker that has signed keeps its role. -/
theorem refines_signed (hc : s'.checkMap = s.checkMap) (hb : s'.visitBits = s.visitBits)
    (hl : s'.worker = Function.update s.worker w l) (hbusy : s'.sync.isBusy = s.sync.isBusy)
    (hv : s'.sync.startVertex = s.sync.startVertex) (hs : (s.worker w).pc.signed = true)
    (hs' : l.pc.signed = true) (hdist : l.dist = (s.worker w).dist)
    (hnext : l.next = (s.worker w).next) : Refines p (view p start D s) (view p start D s') := by
  refine refines_stay hc hb hl (fun u _ => role_congr (by rw [hbusy]) (by rw [hv])) ?_
  rw [role_signed hs, role_signed hs', hdist, hnext]

/-- Who is not a member has no part in the level, and who is has signed it. -/
theorem signed_or_out (h : Inv n D s.sync s.worker) (hc : Covered s.sync D) (w : Nat) :
    SignedAt D (s.worker w) ∨ ∀ E, role E s.sync w (s.worker w) = .out (s.worker w).next := by
  cases hm : (s.worker w).pc.member (s.sync.isBusy w) with
  | true => exact Or.inl (h.signed_of_covered hc hm)
  | false =>
    refine Or.inr fun E => ?_
    cases hpc : (s.worker w).pc <;> rw [hpc] at hm
    case idle =>
      have hb : s.sync.isBusy w = false := hm
      exact (role_waits (Or.inl hpc)).trans (if_neg (by rw [hb]; decide))
    case idleFree =>
      have hb : s.sync.isBusy w = false := hm
      exact (role_waits (Or.inr hpc)).trans (if_neg (by rw [hb]; decide))
    case leaveNext | leaveBusy | leaveFree | leaveUnlock | finished | fault => simp [role, hpc]
    all_goals cases hm

/-- The flag of the level before is cleared: this is where the level ends for all. -/
theorem refines_clearFlag (h : Inv n D s.sync s.worker) (hpc : (s.worker w).pc = .clearFlag)
    (f : Nat → Bool) : Refines p (view p start D s) (view p start (D + 1)
      (s.moveSync w ((s.worker w).goto .passUnlock) { s.sync with doneBitsFlag := f })) := by
  have hc : Covered s.sync D := ((h.ok w).here hpc).2.2.1
  have hview : view p start (D + 1)
      (s.moveSync w ((s.worker w).goto .passUnlock) { s.sync with doneBitsFlag := f }) =
      { view p start D s with
        level := D + 1
        role := fun u => ((view p start D s).role u).advance } := by
    unfold view
    congr 1
    funext u
    have hu : role (D + 1) s.sync u (s.worker u) = (role D s.sync u (s.worker u)).advance := by
      rcases signed_or_out h hc u with ⟨hs, hd⟩ | hout
      · rw [role_signed hs, role_signed hs, if_pos hd, if_neg (by omega)]
        rfl
      · rw [hout, hout]
        rfl
    dsimp only [St.moveSync]
    rw [← hu]
    by_cases huw : u = w
    · subst huw
      rw [Function.update_self, role_signed rfl, role_signed (by rw [hpc]; rfl)]
      rfl
    · rw [Function.update_of_ne huw]
      exact role_congr rfl rfl
  right
  rw [hview]
  refine .advance (view p start D s) fun u => ?_
  show (role D s.sync u (s.worker u)).settled = true
  rcases signed_or_out h hc u with ⟨hs, hd⟩ | hout
  · rw [role_signed hs, if_pos hd]
    rfl
  · rw [hout]
    rfl

theorem refines_barrier (h : Inv n D s.sync s.worker) (hs : barrierStep s w = some s') :
    Refines p (view p start D s) (view p start (levelAfter D (s.worker w)) s') := by
  unfold levelAfter
  unfold barrierStep at hs
  cases hpc : (s.worker w).pc <;> simp only [hpc, reduceCtorEq, if_false, if_true] at hs ⊢ <;>
    have hok := (h.ok w).here hpc
  case doneLock =>
    split at hs <;> cases hs
    exact refines_stay rfl rfl rfl (fun _ _ => rfl) (by simp [role, hpc, Worker.goto])
  case doneLoad =>
    cases hs
    exact refines_stay rfl rfl rfl (fun _ _ => rfl) (by simp [role, hpc])
  case doneStore =>
    cases hs
    have hd : (s.worker w).dist = D := hok.2.1
    refine refines_stay rfl rfl rfl (fun _ _ => rfl) ?_
    rw [role_signed rfl]
    simp [role, hpc, Worker.goto, hd]
  case clearFlag =>
    cases hs
    exact refines_clearFlag h hpc _
  case passUnlock =>
    cases hs
    have hd : (s.worker w).dist + 1 = D := hok.2.1
    refine refines_stay rfl rfl rfl (fun _ _ => rfl) ?_
    rw [role_signed (l := s.worker w) (by rw [hpc]; rfl), if_neg (by omega)]
    rfl
  case waitFullAgain | passLock | passTest =>
    split at hs <;> cases hs <;>
      exact refines_signed rfl rfl rfl rfl rfl (by rw [hpc]; rfl) rfl rfl rfl
  case doneUnlock | waitDone | waitFull | resetDone | copyFull | setFlag =>
    cases hs
    exact refines_signed rfl rfl rfl rfl rfl (by rw [hpc]; rfl) rfl rfl rfl

theorem refines_leave (h : Inv n D s.sync s.worker) (hs : leaveStep s w = some s') :
    Refines p (view p start D s) (view p start D s') := by
  unfold leaveStep at hs
  cases hpc : (s.worker w).pc <;> have hok := (h.ok w).here hpc <;> simp only [hpc] at hs
  case leaveLock =>
    split at hs <;> cases hs
    exact refines_stay rfl rfl rfl (fun _ _ => rfl) (by simp [role, hpc, Worker.goto])
  case leaveFull | leaveNext | leaveFree =>
    cases hs
    exact refines_stay rfl rfl rfl (fun _ _ => rfl) (by simp [role, hpc, Worker.goto])
  case leaveBusy =>
    cases hs
    refine refines_stay rfl rfl rfl (fun u hu => ?_) (by simp [role, hpc, Worker.goto])
    exact role_congr (Function.update_of_ne hu ..) rfl
  case leaveUnlock =>
    cases hs
    have hfree : s.sync.isBusy w = false := hok
    refine refines_stay rfl rfl rfl (fun _ _ => rfl) ?_
    rw [role_waits (Or.inl rfl), if_neg (by rw [sync_moveSync, hfree]; decide)]
    simp [role, hpc, Worker.goto]
  all_goals cases hs

/-- **The refinement**: every step of a worker is a step of the team, or changes nothing for it. -/
theorem refines_worker (h : Inv n D s.sync s.worker) (ht : Tidy (s.worker w)) (hw : w < n)
    (hstop : Stopped p start s → Stopped p start s') (hs : beginWorkAt p start n s w = some s') :
    Refines p (view p start D s) (view p start (levelAfter D (s.worker w)) s') := by
  unfold beginWorkAt at hs
  have hstay : (s.worker w).pc ≠ .clearFlag → levelAfter D (s.worker w) = D := fun hc => if_neg hc
  cases hpc : (s.worker w).pc <;> simp only [hpc] at hs
  case idle | idleFree | load =>
    rw [hstay (by rw [hpc]; decide)]
    exact refines_idle h hs
  case levelTest =>
    rw [hstay (by rw [hpc]; decide)]
    exact refines_level ht hpc hs
  case giveTest | giveLock | giveCheck | giveBreak | giveDec | giveScan | giveParam | giveFull
      | giveBusy | giveUnlock =>
    rw [hstay (by rw [hpc]; decide)]
    exact refines_give h ht hw hs
  case visit | mark | update | setBits =>
    rw [hstay (by rw [hpc]; decide)]
    exact refines_visit hstop hs
  case leaveLock | leaveFull | leaveNext | leaveBusy | leaveFree | leaveUnlock =>
    rw [hstay (by rw [hpc]; decide)]
    exact refines_leave h hs
  case finished | fault => cases hs
  all_goals exact refines_barrier h hs

end

end MulticorePrac.MultiBfs
