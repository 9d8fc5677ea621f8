import MulticorePrac.Lib.Threads
import Mathlib.Data.Bool.Basic

/-!
# Lab5: two timers and a strand (`timer_fix_race.cpp`)

Two threads run one `io_service` with two timers.  `Print1` and `Print2` test `count_`,
add 1 to it and wait for their timer again.  The constructor wraps the two handlers with
`strand_`, and handlers wrapped by one strand do not overlap.  But the handlers re-arm
their timers without the strand, and these may run at the same time on the two threads.

The end of a wait is at any time.  A handler is started by a thread that is free; its test
of `count_`, the load and the store of `++count_`, the re-arming and the return are steps
of their own.  A thread leaves `run` when there is neither a wait nor a handler.

From their second turn on the two handlers overlap, and both can pass the test at 9
(`final_eleven`).  If one of the two threads starts a handler only while both waits are
those of the constructor, the printer is right (`printer_right`).
-/

namespace MulticorePrac.Printer

/-- Where a handler is. -/
inductive Pc
  | test
  | load
  | store (x : Nat)
  | rearm
  | ret
  deriving DecidableEq, Repr

/-- A handler in progress: `Print1` for timer `false` and `Print2` for timer `true`. -/
structure Handler where
  timer : Bool
  wrapped : Bool
  pc : Pc
  deriving DecidableEq, Repr

/-- A thread in `run`, or after it. -/
inductive Worker
  | idle
  | busy (h : Handler)
  | left
  deriving DecidableEq, Repr

/-- `wait` has for each timer whether it is waited for, and with a wrapped handler or not. -/
structure St where
  count : Nat
  wait : Bool → Option Bool
  worker : Bool → Worker

inductive Act
  | start (w timer : Bool)
  | run (w : Bool)
  | leave (w : Bool)
  deriving DecidableEq, Repr

def Worker.isBusy : Worker → Bool
  | .busy _ => true
  | _ => false

def Worker.inStrand : Worker → Bool
  | .busy h => h.wrapped
  | _ => false

def St.setWorker (s : St) (w : Bool) (x : Worker) : St :=
  { s with worker := Function.update s.worker w x }

/-- The next step of the handler `h` on thread `w`. -/
def handlerStep (s : St) (w : Bool) (h : Handler) : St :=
  match h.pc with
  | .test => s.setWorker w (.busy { h with pc := if s.count < 10 then .load else .ret })
  | .load => s.setWorker w (.busy { h with pc := .store s.count })
  | .store x => { s.setWorker w (.busy { h with pc := .rearm }) with count := x + 1 }
  | .rearm => { s.setWorker w (.busy { h with pc := .ret }) with
      wait := Function.update s.wait h.timer (some false) }
  | .ret => s.setWorker w .idle

def step (s : St) : Act → Option St
  | .start w timer =>
    match s.worker w, s.wait timer with
    | .idle, some wrapped =>
      if wrapped = true ∧ (s.worker !w).inStrand = true then none
      else some { s.setWorker w (.busy ⟨timer, wrapped, .test⟩) with
        wait := Function.update s.wait timer none }
    | _, _ => none
  | .run w =>
    match s.worker w with
    | .busy h => some (handlerStep s w h)
    | _ => none
  | .leave w =>
    if s.worker w = .idle ∧ (∀ timer, s.wait timer = none) ∧ (s.worker !w).isBusy = false then
      some (s.setWorker w .left)
    else none

/-- After the constructor, with both threads in `run`. -/
def machine : Machine St Act where
  init := ⟨0, fun _ => some true, fun _ => .idle⟩
  step := step

/-- `Print1` and `Print2` are both in progress. -/
def Overlap (s : St) : Prop :=
  ∃ w h h', s.worker w = .busy h ∧ s.worker (!w) = .busy h' ∧ h.timer ≠ h'.timer

/-- All handlers are started by thread `m`, but the other thread may start one while both waits
are those of the constructor. -/
def OneRunner (m : Bool) (s : St) (a : Act) : Prop :=
  ∀ timer, a = .start (!m) timer → ∀ x, s.wait x = some true

instance (m : Bool) (s : St) (a : Act) : Decidable (OneRunner m s a) :=
  inferInstanceAs (Decidable (∀ timer, a = .start (!m) timer → ∀ x, s.wait x = some true))

/-! ## The invariant -/

/-- What the program counter of a handler says about `count_`. -/
def PcOk (count : Nat) (pc : Pc) : Prop :=
  (pc = .load → count < 10) ∧ ∀ x, pc = .store x → x = count ∧ count < 10

/-- The timer `timer` goes on: it is waited for, its handler has not come to its return, or the
end of the count is reached. -/
def Live (s : St) (timer : Bool) : Prop :=
  s.wait timer ≠ none ∨ (∃ w h, s.worker w = .busy h ∧ h.timer = timer ∧ h.pc ≠ .ret) ∨
    10 ≤ s.count

structure Inv (m : Bool) (s : St) : Prop where
  first : ∀ h, s.worker (!m) = .busy h → h.wrapped = true ∧ s.wait (!h.timer) = some true ∧
    (h.pc ≠ .ret → s.wait h.timer = none) ∧
    ∀ h', s.worker m = .busy h' → h'.timer = h.timer ∧ h.pc = .ret
  used : ∀ h, s.worker m = .busy h → s.wait h.timer ≠ some true
  pc : ∀ w h, s.worker w = .busy h → PcOk s.count h.pc
  le : s.count ≤ 10
  live : ∀ timer, Live s timer
  left : ∀ w, s.worker w = .left → (∀ timer, s.wait timer = none) ∧ (s.worker !w).isBusy = false

section
variable {m : Bool} {s s' : St} {w : Bool} {h : Handler}

/-- A handler that is not about to store to `count_` says nothing about it. -/
theorem pcOk_of {n : Nat} {pc : Pc} (h : pc = .test ∨ pc = .rearm ∨ pc = .ret) : PcOk n pc := by
  rcases h with rfl | rfl | rfl <;>
    exact ⟨fun hc => (by cases hc), fun x hc => (by cases hc)⟩

/-- While a handler has not come to its return, the other thread has none of the other timer, and
none that still uses `count_`. -/
theorem Inv.alone (hi : Inv m s) (hw : s.worker w = .busy h) (hpc : h.pc ≠ .ret) {h' : Handler}
    (hw' : s.worker (!w) = .busy h') : h'.timer = h.timer ∧ h'.pc = .ret ∧ w = m := by
  rcases eq_or_eq_not m w with rfl | rfl
  · obtain ⟨-, -, -, hother⟩ := hi.first h' hw'
    obtain ⟨h1, h2⟩ := hother h hw
    exact ⟨h1.symm, h2, rfl⟩
  · rw [Bool.not_not] at hw'
    obtain ⟨-, -, -, hother⟩ := hi.first h hw
    exact absurd (hother h' hw').2 hpc

/-- Print1 and Print2 do not overlap. -/
theorem Inv.no_overlap (hi : Inv m s) : ¬Overlap s := by
  rintro ⟨w, h, h', hw, hw', hne⟩
  rcases eq_or_eq_not m w with rfl | rfl
  · exact hne ((hi.first h' hw').2.2.2 h hw).1
  · rw [Bool.not_not] at hw'
    exact hne ((hi.first h hw).2.2.2 h' hw').1.symm

theorem Inv.other_stays (hi : Inv m s) (hw : s.worker w = .busy h) : s.worker (!w) ≠ .left := by
  intro hl
  have hbusy := (hi.left _ hl).2
  rw [Bool.not_not, hw] at hbusy
  cases hbusy

/-! ## One step -/

/-- A timer goes on when a thread is at work that had nothing to do with it. -/
theorem Live.mono {t : Bool} (hl : Live s t) (hwait : s'.wait t = s.wait t)
    (hcount : s.count ≤ s'.count) (hold : ∀ u, u ≠ w → s'.worker u = s.worker u)
    (hw : ∀ g, s.worker w = .busy g → g.timer ≠ t) : Live s' t := by
  rcases hl with hl | ⟨u, g, hu, htimer, hl⟩ | hl
  · left
    rw [hwait]
    exact hl
  · right; left
    refine ⟨u, g, ?_, htimer, hl⟩
    rw [hold u ?_]
    · exact hu
    · rintro rfl
      exact hw g hu htimer
  · exact Or.inr (Or.inr (Nat.le_trans hl hcount))

/-- A thread that is at work keeps the other one from leaving. -/
theorem none_left (hnew : s'.worker w = .busy h) (hold : ∀ u, u ≠ w → s'.worker u = s.worker u)
    (hstay : s.worker (!w) ≠ .left) (u : Bool) : s'.worker u ≠ .left := by
  rcases eq_or_eq_not w u with rfl | rfl
  · rw [hnew]
    exact fun hc => by cases hc
  · rw [hold _ (Bool.not_ne_self w)]
    exact hstay

/-- A handler that has not come to its return goes on. -/
theorem Inv.advance (hi : Inv m s) (hw : s.worker w = .busy h) (hret : h.pc ≠ .ret) {pc : Pc}
    (hworker : s'.worker = Function.update s.worker w (.busy { h with pc := pc }))
    (hwait : ∀ t, t ≠ h.timer → s'.wait t = s.wait t)
    (hself : s'.wait h.timer = s.wait h.timer ∨ pc = .ret ∧ s'.wait h.timer = some false)
    (hcount : s.count ≤ s'.count ∧ s'.count ≤ 10) (hpc : PcOk s'.count pc)
    (hlive : pc ≠ .ret ∨ s'.wait h.timer ≠ none ∨ 10 ≤ s'.count) : Inv m s' := by
  have hnew : s'.worker w = .busy { h with pc := pc } := by rw [hworker, Function.update_self]
  have hold : ∀ u, u ≠ w → s'.worker u = s.worker u := fun u hu => by
    rw [hworker, Function.update_of_ne hu]
  refine ⟨fun g hg => ?_, fun g hg => ?_, fun u g hg => ?_, hcount.2, fun t => ?_, fun u hu => ?_⟩
  · rcases eq_or_eq_not m w with rfl | rfl
    · rw [hold _ (Bool.not_ne_self w)] at hg
      obtain ⟨hwrap, hother, -, hsame⟩ := hi.first g hg
      obtain ⟨htimer, hgret⟩ := hsame h hw
      refine ⟨hwrap, ?_, fun hne => absurd hgret hne, fun h' hh' => ?_⟩
      · rw [hwait _ (by rw [htimer]; exact Bool.not_ne_self _)]
        exact hother
      · rw [hnew] at hh'
        cases hh'
        exact ⟨htimer, hgret⟩
    · rw [hnew] at hg
      cases hg
      obtain ⟨hwrap, hother, hnone, hsame⟩ := hi.first h hw
      refine ⟨hwrap, ?_, fun hne => ?_, fun h' hh' => ?_⟩
      · rw [hwait _ (Bool.not_ne_self _)]
        exact hother
      · rcases hself with hself | ⟨hc, -⟩
        · rw [hself]; exact hnone hret
        · exact absurd hc hne
      · rw [hold _ (Bool.self_ne_not m)] at hh'
        exact absurd (hsame h' hh').2 hret
  · rcases eq_or_eq_not m w with rfl | rfl
    · rw [hnew] at hg
      cases hg
      rcases hself with hself | ⟨-, hself⟩
      · rw [hself]; exact hi.used h hw
      · rw [hself]; exact fun hc => by cases hc
    · rw [hold _ (Bool.self_ne_not m)] at hg
      exact absurd ((hi.first h hw).2.2.2 g hg).2 hret
  · rcases eq_or_eq_not w u with rfl | rfl
    · rw [hnew] at hg
      cases hg
      exact hpc
    · -- the other thread has nothing to do with `count_`
      rw [hold _ (Bool.not_ne_self w)] at hg
      exact pcOk_of (Or.inr (Or.inr (hi.alone hw hret hg).2.1))
  · by_cases ht : t = h.timer
    · subst ht
      rcases hlive with hl | hl | hl
      · exact Or.inr (Or.inl ⟨w, _, hnew, rfl, hl⟩)
      · exact Or.inl hl
      · exact Or.inr (Or.inr hl)
    · refine (hi.live t).mono (hwait t ht) hcount.1 hold fun g hg => ?_
      rw [hw] at hg
      cases hg
      exact Ne.symm ht
  · exact absurd hu (none_left hnew hold (hi.other_stays hw) u)

/-- A thread that has nothing to do, or leaves. -/
theorem Inv.release (hi : Inv m s) {x : Worker} (hx : x.isBusy = false)
    (hret : ∀ h, s.worker w = .busy h → h.pc = .ret)
    (hleft : x = .left → (∀ timer, s.wait timer = none) ∧ (s.worker !w).isBusy = false)
    (hother : s.worker (!w) = .left → ∀ timer, s.wait timer = none) : Inv m (s.setWorker w x) := by
  have hnew : (s.setWorker w x).worker w = x := Function.update_self ..
  have hsame : (s.setWorker w x).worker (!w) = s.worker !w :=
    Function.update_of_ne (Bool.not_ne_self w) ..
  have hold : ∀ {u g}, (s.setWorker w x).worker u = .busy g → s.worker u = .busy g := by
    intro u g hg
    rw [← hg]
    refine (Function.update_of_ne ?_ ..).symm
    rintro rfl
    rw [hnew] at hg
    rw [hg] at hx
    cases hx
  refine ⟨fun g hg => ?_, fun g hg => hi.used g (hold hg), fun u g hg => hi.pc u g (hold hg), hi.le,
    fun t => ?_, fun u hu => ?_⟩
  · obtain ⟨h1, h2, h3, h4⟩ := hi.first g (hold hg)
    exact ⟨h1, h2, h3, fun h' hh' => h4 h' (hold hh')⟩
  · rcases hi.live t with hl | ⟨u, g, hu, htimer, hl⟩ | hl
    · exact Or.inl hl
    · refine Or.inr (Or.inl ⟨u, g, ?_, htimer, hl⟩)
      rw [← hu]
      refine Function.update_of_ne ?_ ..
      rintro rfl
      exact hl (hret g hu)
    · exact Or.inr (Or.inr hl)
  · rcases eq_or_eq_not w u with rfl | rfl
    · rw [hnew] at hu
      obtain ⟨h1, h2⟩ := hleft hu
      refine ⟨h1, ?_⟩
      rw [hsame]
      exact h2
    · rw [hsame] at hu
      refine ⟨hother hu, ?_⟩
      rw [Bool.not_not, hnew]
      exact hx

theorem inv_handler (hi : Inv m s) (hw : s.worker w = .busy h) : Inv m (handlerStep s w h) := by
  have hok := hi.pc w h hw
  unfold handlerStep
  cases hpc : h.pc with
  | test =>
    have hret : h.pc ≠ .ret := by rw [hpc]; nofun
    by_cases hc : s.count < 10
    · simp only [if_pos hc]
      exact hi.advance hw hret rfl (fun _ _ => rfl) (Or.inl rfl) ⟨Nat.le_refl _, hi.le⟩
        ⟨fun _ => hc, fun x hx => by cases hx⟩ (Or.inl (fun hc => by cases hc))
    · simp only [if_neg hc]
      exact hi.advance hw hret rfl (fun _ _ => rfl) (Or.inl rfl) ⟨Nat.le_refl _, hi.le⟩
        (pcOk_of (by decide)) (Or.inr (Or.inr (Nat.le_of_not_lt hc)))
  | load =>
    have hret : h.pc ≠ .ret := by rw [hpc]; nofun
    refine hi.advance hw hret rfl (fun _ _ => rfl) (Or.inl rfl) ⟨Nat.le_refl _, hi.le⟩
      ⟨fun hx => (by cases hx), fun x hx => ?_⟩ (Or.inl (fun hc => by cases hc))
    cases hx
    exact ⟨rfl, hok.1 hpc⟩
  | store x =>
    have hret : h.pc ≠ .ret := by rw [hpc]; nofun
    obtain ⟨rfl, hlt⟩ := hok.2 x hpc
    exact hi.advance hw hret rfl (fun _ _ => rfl) (Or.inl rfl) ⟨Nat.le_succ _, hlt⟩
      (pcOk_of (by decide)) (Or.inl (fun hc => by cases hc))
  | rearm =>
    have hret : h.pc ≠ .ret := by rw [hpc]; nofun
    have hself : Function.update s.wait h.timer (some false) h.timer = some false :=
      Function.update_self ..
    refine hi.advance hw hret rfl (fun t ht => Function.update_of_ne ht ..)
      (Or.inr ⟨rfl, hself⟩) ⟨Nat.le_refl _, hi.le⟩
      (pcOk_of (by decide)) (Or.inr (Or.inl ?_))
    show Function.update s.wait h.timer (some false) h.timer ≠ none
    rw [hself]
    exact fun hc => by cases hc
  | ret =>
    refine hi.release rfl (fun g hg => ?_) (fun hc => by cases hc) fun hl => (hi.left _ hl).1
    rw [hw] at hg
    cases hg
    exact hpc

/-- While the first handler of the other thread is in progress, only the timer it has set again can
be waited for outside the strand. -/
theorem Inv.start_beside (hi : Inv m s) {g : Handler} (hg : s.worker (!m) = .busy g)
    {timer wrapped : Bool} (hwait : s.wait timer = some wrapped)
    (hstrand : ¬(wrapped = true ∧ (s.worker !m).inStrand = true)) :
    timer = g.timer ∧ g.pc = .ret := by
  obtain ⟨hwrap, hother, hnone, -⟩ := hi.first g hg
  have hunwrapped : wrapped = false := by
    rw [hg] at hstrand
    cases wrapped with
    | false => rfl
    | true => exact absurd ⟨rfl, hwrap⟩ hstrand
  have htimer : timer = g.timer := by
    rcases eq_or_eq_not g.timer timer with ht | ht
    · exact ht
    · rw [ht, hother, hunwrapped] at hwait
      cases hwait
  refine ⟨htimer, ?_⟩
  by_contra hne
  rw [htimer, hnone hne] at hwait
  cases hwait

/-- A handler is started: the strand keeps the first handler of one timer and that of the other
apart, and there is no other thread to start the later ones. -/
theorem inv_start (hi : Inv m s) {timer wrapped : Bool} (hrun : OneRunner m s (.start w timer))
    (hw : s.worker w = .idle) (hwait : s.wait timer = some wrapped)
    (hstrand : ¬(wrapped = true ∧ (s.worker !w).inStrand = true)) :
    Inv m { s.setWorker w (.busy ⟨timer, wrapped, .test⟩) with
      wait := Function.update s.wait timer none } := by
  obtain ⟨s', hs'⟩ : ∃ s' : St, s' = { s.setWorker w (.busy ⟨timer, wrapped, .test⟩) with
      wait := Function.update s.wait timer none } := ⟨_, rfl⟩
  have hnew : s'.worker w = .busy ⟨timer, wrapped, .test⟩ := by
    rw [hs']; exact Function.update_self ..
  have hold : ∀ u, u ≠ w → s'.worker u = s.worker u := by
    intro u hu
    rw [hs']
    exact Function.update_of_ne hu ..
  have hself : s'.wait timer = none := by rw [hs']; exact Function.update_self ..
  have hwait' : ∀ t, t ≠ timer → s'.wait t = s.wait t := by
    intro t ht
    rw [hs']
    exact Function.update_of_ne ht ..
  have hcount : s'.count = s.count := by rw [hs']; rfl
  have hstay : s.worker (!w) ≠ .left := by
    intro hu
    have := (hi.left _ hu).1 timer
    rw [hwait] at this
    cases this
  rw [← hs']
  refine ⟨fun g hg => ?_, fun g hg => ?_, fun u g hg => ?_, hcount ▸ hi.le, fun t => ?_,
    fun u hu => ?_⟩
  · rcases eq_or_eq_not m w with rfl | rfl
    · rw [hold _ (Bool.not_ne_self w)] at hg
      obtain ⟨hwrap, hother, -, -⟩ := hi.first g hg
      obtain ⟨htimer, hret⟩ := hi.start_beside hg hwait hstrand
      refine ⟨hwrap, ?_, fun hne => absurd hret hne, fun h' hh' => ?_⟩
      · rw [hwait' _ (by rw [htimer]; exact Bool.not_ne_self _)]
        exact hother
      · rw [hnew] at hh'
        cases hh'
        exact ⟨htimer, hret⟩
    · rw [hnew] at hg
      cases hg
      have hboth := hrun timer rfl
      refine ⟨?_, ?_, fun _ => hself, fun h' hh' => ?_⟩
      · rw [hboth timer] at hwait
        exact (Option.some.inj hwait).symm
      · rw [hwait' _ (Bool.not_ne_self timer)]
        exact hboth _
      · rw [hold _ (Bool.self_ne_not m)] at hh'
        exact absurd (hboth h'.timer) (hi.used h' hh')
  · rcases eq_or_eq_not m w with rfl | rfl
    · rw [hnew] at hg
      cases hg
      rw [hself]
      exact fun hc => by cases hc
    · rw [hold _ (Bool.self_ne_not m)] at hg
      exact absurd (hrun timer rfl g.timer) (hi.used g hg)
  · rw [hcount]
    by_cases hu : u = w
    · subst hu
      rw [hnew] at hg
      cases hg
      exact pcOk_of (Or.inl rfl)
    · rw [hold u hu] at hg
      exact hi.pc u g hg
  · by_cases ht : t = timer
    · subst ht
      exact Or.inr (Or.inl ⟨w, _, hnew, rfl, fun hc => by cases hc⟩)
    · refine (hi.live t).mono (hwait' t ht) (Nat.le_of_eq hcount.symm) hold fun g hg => ?_
      rw [hw] at hg
      cases hg
  · exact absurd hu (none_left hnew hold hstay u)

theorem inv_step {a : Act} (hi : Inv m s) (hrun : OneRunner m s a) (hs : step s a = some s') :
    Inv m s' := by
  cases a with
  | start w timer =>
    unfold step at hs
    dsimp only at hs
    split at hs
    · rename_i wrapped hw hwait
      split at hs
      · cases hs
      · rename_i hstrand
        cases hs
        exact inv_start hi hrun hw hwait hstrand
    · cases hs
  | run w =>
    unfold step at hs
    dsimp only at hs
    split at hs
    · rename_i h hw
      cases hs
      exact inv_handler hi hw
    · cases hs
  | leave w =>
    unfold step at hs
    dsimp only at hs
    split at hs
    · rename_i hc
      cases hs
      refine hi.release rfl (fun h hh => ?_) (fun _ => hc.2) fun _ => hc.2.1
      rw [hc.1] at hh
      cases hh
    · cases hs

theorem inv_initial (m : Bool) : Inv m machine.init where
  first _ hg := by cases hg
  used _ hg := by cases hg
  pc _ _ hg := by cases hg
  le := Nat.zero_le _
  live _ := Or.inl (fun hc => by cases hc)
  left _ hu := by cases hu

end

/-! ## The theorem -/

/-- If all handlers are started by one thread, but for a first one while both waits are those of
the constructor, `Print1` and `Print2` are never both in progress, and `count_` is 10 when both
threads have left `run`. -/
theorem printer_right (m : Bool) (as : List Act) (s : St)
    (hrun : machine.AllSteps (OneRunner m) machine.init as) (hr : machine.run as = some s) :
    ¬Overlap s ∧ ((∀ w, s.worker w = .left) → s.count = 10) := by
  have hi : Inv m s := machine.invariantOn (OneRunner m) (Inv m) (inv_initial m)
    (fun _ _ _ hi hrun hs => inv_step hi hrun hs) hrun hr
  refine ⟨hi.no_overlap, fun hleft => ?_⟩
  have hwait := (hi.left false (hleft false)).1 false
  have hle := hi.le
  rcases hi.live false with hl | ⟨w, h, hw, -⟩ | hl
  · exact absurd hwait hl
  · rw [hleft w] at hw
    cases hw
  · omega

/-- One turn of a handler that passes the test, from its start to its return. -/
def turn (w timer : Bool) : List Act := .start w timer :: List.replicate 5 (.run w)

/-- The last turn of a handler: the test fails. -/
def lastTurn (w timer : Bool) : List Act := [.start w timer, .run w, .run w]

/-- The first handler on the second thread, all others on the first. -/
def soloRun : List Act :=
  turn true true ++ (List.replicate 9 (turn false false)).flatten ++ lastTurn false false ++
    lastTurn false true ++ [.leave true, .leave false]

theorem printer_right_solo : ∃ s, machine.run soloRun = some s ∧
    machine.AllSteps (OneRunner false) machine.init soloRun ∧ (∀ w, s.worker w = .left) ∧
    s.count = 10 := by
  have hs : (machine.run soloRun).any (fun s => decide (∀ w, s.worker w = .left)) = true := by
    decide +kernel
  have hrun : machine.AllSteps (OneRunner false) machine.init soloRun := by decide +kernel
  obtain ⟨s, hr, h⟩ := (Option.any_eq_true _ _).mp hs
  have hleft := of_decide_eq_true h
  exact ⟨s, hr, hrun, hleft, (printer_right false soloRun s hrun hr).2 hleft⟩

/-- The two handlers take turns up to 9, and then both pass the test. -/
def overlapRun : List Act :=
  turn false false ++ turn true true ++ (List.replicate 7 (turn false false)).flatten ++
    [.start false false, .start true true, .run false, .run true]

/-- Both add 1, wait again and find the end of the count. -/
def overlapRest : List Act :=
  List.replicate 4 (.run false) ++ List.replicate 4 (.run true) ++ lastTurn false false ++
    lastTurn true true ++ [.leave false, .leave true]

/-- `Print1` and `Print2` are both in progress past their tests at 9, and the final count is 11. -/
theorem final_eleven : ∃ s, machine.run overlapRun = some s ∧ Overlap s ∧ s.count = 9 ∧
    ∃ s', machine.runFrom s overlapRest = some s' ∧ (∀ w, s'.worker w = .left) ∧ s'.count = 11 := by
  have hs : (machine.run overlapRun).any (fun s =>
      decide (s.worker false = .busy ⟨false, false, .load⟩ ∧
        s.worker true = .busy ⟨true, false, .load⟩ ∧ s.count = 9) &&
      (machine.runFrom s overlapRest).any fun s' =>
        decide ((∀ w, s'.worker w = .left) ∧ s'.count = 11)) = true := by
    decide +kernel
  obtain ⟨s, hr, h⟩ := (Option.any_eq_true _ _).mp hs
  obtain ⟨h1, hrest⟩ := Bool.and_eq_true_iff.mp h
  obtain ⟨h0, h1, hcount⟩ := of_decide_eq_true h1
  obtain ⟨s', hr', h'⟩ := (Option.any_eq_true _ _).mp hrest
  obtain ⟨hleft, heleven⟩ := of_decide_eq_true h'
  exact ⟨s, hr, ⟨false, _, _, h0, h1, by decide⟩, hcount, s', hr', hleft, heleven⟩

end MulticorePrac.Printer
