import MulticorePrac.Lib.Level
import MulticorePrac.Lib.Threads

/-!
# A team that searches level by level

The workers of a team hold the vertices of the current level between them.  A worker
takes one vertex after the other, tests its neighbours and marks those that are not
checked; the test and the mark are apart, so that two workers may mark the same vertex.
It may give a vertex to a worker that has none.  The level ends when everyone who takes
part is done with it.  Once the search is told to stop no one starts another level.

* `TeamInv`: the vertices a worker holds are at the distance that its role says; what
  is not lost to a stop is held by someone.
* `TeamStep.inv`: every step keeps it.
* `TeamInv.all_checked`: when everyone is out and no one has stopped the search, every
  vertex that can be reached is checked.
-/

namespace MulticorePrac

/-- What a worker has to do with the current level.  `next` are vertices of the next level, but
for a worker that is ready to start the current one. -/
inductive Role (V : Type)
  | out (left : List V)
  | ready (next : List V)
  | work (cur todo next : List V)
  | mark (v : V) (cur todo next : List V)
  | done (next : List V)

structure Team (V : Type) where
  level : Nat
  check : V → Bool
  stop : Prop
  role : Nat → Role V

namespace Role
variable {V : Type}

/-- Vertices of the level whose neighbours are still to be visited. -/
def source : Role V → List V
  | ready next => next
  | work cur _ _ => cur
  | mark _ cur _ _ => cur
  | _ => []

/-- Neighbours that are still to be visited. -/
def todo : Role V → List V
  | work _ todo _ => todo
  | mark v _ todo _ => v :: todo
  | _ => []

/-- Vertices that were found for the next level. -/
def gain : Role V → List V
  | work _ _ next => next
  | mark _ _ _ next => next
  | done next => next
  | _ => []

/-- Has started the level. -/
def started : Role V → Bool
  | work .. => true
  | mark .. => true
  | done _ => true
  | _ => false

/-- Has no part in the level any more. -/
def settled : Role V → Bool
  | out _ => true
  | done _ => true
  | _ => false

/-- Where the level ends, whoever is done with it is ready for the next. -/
def advance : Role V → Role V
  | done next => ready next
  | r => r

end Role

section
variable {V : Type} [DecidableEq V] (nbrs : V → List V)

/-- One step of the team. -/
inductive TeamStep : Team V → Team V → Prop
  | enter (t : Team V) (w : Nat) (next : List V) (hr : t.role w = .ready next) (hs : ¬ t.stop) :
    TeamStep t { t with role := Function.update t.role w (.work next [] []) }
  | quit (t : Team V) (w : Nat) (next : List V) (hr : t.role w = .ready next)
    (hs : t.stop ∨ next = []) : TeamStep t { t with role := Function.update t.role w (.out next) }
  | give (t : Team V) (w u : Nat) (v : V) (cur todo next left : List V) (hwu : w ≠ u)
    (hr : t.role w = .work (cur ++ [v]) todo next) (hu : t.role u = .out left) :
    TeamStep t { t with
      role := Function.update (Function.update t.role u (.ready (left ++ [v]))) w
        (.work cur todo next) }
  | take (t : Team V) (w : Nat) (v : V) (cur next : List V)
    (hr : t.role w = .work (v :: cur) [] next) :
    TeamStep t { t with role := Function.update t.role w (.work cur (nbrs v) next) }
  | skip (t : Team V) (w : Nat) (v : V) (cur todo next : List V)
    (hr : t.role w = .work cur (v :: todo) next) (hc : t.check v = true) :
    TeamStep t { t with role := Function.update t.role w (.work cur todo next) }
  | test (t : Team V) (w : Nat) (v : V) (cur todo next : List V)
    (hr : t.role w = .work cur (v :: todo) next) (hc : t.check v = false) :
    TeamStep t { t with role := Function.update t.role w (.mark v cur todo next) }
  | mark (t : Team V) (w : Nat) (v : V) (cur todo next : List V)
    (hr : t.role w = .mark v cur todo next) :
    TeamStep t { t with
      check := Function.update t.check v true
      role := Function.update t.role w (.work cur todo (next ++ [v])) }
  | finish (t : Team V) (w : Nat) (next : List V) (hr : t.role w = .work [] [] next) :
    TeamStep t { t with role := Function.update t.role w (.done next) }
  | advance (t : Team V) (hr : ∀ w, (t.role w).settled = true) :
    TeamStep t { t with level := t.level + 1, role := fun w => (t.role w).advance }
  | halt (t : Team V) (stop : Prop) (hs : t.stop → stop) : TeamStep t { t with stop := stop }

end

/-! ## The invariant -/

section
variable {V : Type} (G : SimpleGraph V) (s : V) (nbrs : V → List V)

/-- The vertices that a worker holds are where its role says. -/
def RoleOk (level : Nat) (stop : Prop) : Role V → Prop
  | .out left => ¬ stop → left = []
  | .ready next => ¬ stop → ∀ v ∈ next, At G s level v
  | .work cur todo next => (∀ v ∈ cur, At G s level v) ∧
      (∀ v ∈ todo, ∃ u, At G s level u ∧ v ∈ nbrs u) ∧ ∀ v ∈ next, At G s (level + 1) v
  | .mark v cur todo next => (∀ v ∈ cur, At G s level v) ∧
      (∀ v ∈ todo, ∃ u, At G s level u ∧ v ∈ nbrs u) ∧ (∀ v ∈ next, At G s (level + 1) v) ∧
      At G s (level + 1) v
  | .done next => ∀ v ∈ next, At G s (level + 1) v

/-- Everything up to the current level is checked. -/
def Closed (t : Team V) : Prop := ∀ e v, e ≤ t.level → At G s e v → t.check v = true

structure TeamInv (t : Team V) : Prop where
  roles : ∀ w, RoleOk G s nbrs t.level t.stop (t.role w)
  marked : ∀ v, t.check v = true → ∃ e ≤ t.level + 1, At G s e v
  closed : Closed G s t ∨ (t.stop ∧ ∀ w, (t.role w).started = false)
  pending : t.stop ∨ ∀ u, At G s t.level u → (∃ w, u ∈ (t.role w).source) ∨
    ∀ v ∈ nbrs u, t.check v = true ∨ ∃ w, v ∈ (t.role w).todo
  found : t.stop ∨ ∀ v, At G s (t.level + 1) v → t.check v = true → ∃ w, v ∈ (t.role w).gain

end

/-! ## One worker moves -/

section
variable {V : Type} {G : SimpleGraph V} {s : V} {nbrs : V → List V} {t : Team V} {w : Nat}

/-- Worker `w` goes from the role `r` to `r'`: what it held it still holds, or it is visited or
held by another one. -/
theorem TeamInv.move (h : TeamInv G s nbrs t) {r r' : Role V} (hr : t.role w = r)
    (check : V → Bool) (hrole : RoleOk G s nbrs t.level t.stop r')
    (hstart : r'.started = true → r.started = true ∨ Closed G s t)
    (hold : ∀ v, t.check v = true → check v = true)
    (hnew : ∀ v, check v = true → t.check v = true ∨ (At G s (t.level + 1) v ∧ v ∈ r'.gain))
    (hsource : ¬ t.stop → ∀ u ∈ r.source, u ∈ r'.source ∨
      (∃ x, x ≠ w ∧ u ∈ (t.role x).source) ∨ ∀ v ∈ nbrs u, v ∈ r'.todo)
    (htodo : ∀ v ∈ r.todo, check v = true ∨ v ∈ r'.todo) (hgain : ∀ v ∈ r.gain, v ∈ r'.gain) :
    TeamInv G s nbrs { t with check := check, role := Function.update t.role w r' } where
  roles := forall_update (P := fun _ r => RoleOk G s nbrs t.level t.stop r) hrole
    fun u _ => h.roles u
  marked v hv := by
    rcases hnew v hv with hv | ⟨hv, -⟩
    · exact h.marked v hv
    · exact ⟨_, Nat.le_refl _, hv⟩
  closed := by
    rcases h.closed with hc | ⟨hs, hno⟩
    · exact Or.inl fun e v he hv => hold v (hc e v he hv)
    · cases hr' : r'.started with
      | true =>
        rcases hstart hr' with hw | hc
        · rw [← hr, hno w] at hw
          cases hw
        · exact Or.inl fun e v he hv => hold v (hc e v he hv)
      | false =>
        refine Or.inr ⟨hs, ?_⟩
        exact forall_update (P := fun _ (r : Role V) => r.started = false) hr' fun u _ => hno u
  pending := by
    by_cases hs : t.stop
    · exact Or.inl hs
    refine Or.inr fun u hu => ?_
    rcases h.pending.resolve_left hs u hu with ⟨x, hx⟩ | hv
    · by_cases hxw : x = w
      · rw [hxw, hr] at hx
        rcases hsource hs u hx with hu' | ⟨y, hy, hu'⟩ | hu'
        · exact Or.inl ⟨w, by simpa using hu'⟩
        · exact Or.inl ⟨y, by simpa [hy] using hu'⟩
        · exact Or.inr fun v hv => Or.inr ⟨w, by simpa using hu' v hv⟩
      · exact Or.inl ⟨x, by simpa [hxw] using hx⟩
    · refine Or.inr fun v hvu => ?_
      rcases hv v hvu with hc | ⟨x, hx⟩
      · exact Or.inl (hold v hc)
      · by_cases hxw : x = w
        · rw [hxw, hr] at hx
          exact (htodo v hx).imp id fun hv' => ⟨w, by simpa using hv'⟩
        · exact Or.inr ⟨x, by simpa [hxw] using hx⟩
  found := by
    refine h.found.imp id fun hf v hv hc => ?_
    rcases hnew v hc with hc | ⟨-, hg⟩
    · obtain ⟨x, hx⟩ := hf v hv hc
      by_cases hxw : x = w
      · rw [hxw, hr] at hx
        exact ⟨w, by simpa using hgain v hx⟩
      · exact ⟨x, by simpa [hxw] using hx⟩
    · exact ⟨w, by simpa using hg⟩

/-- The same without a new mark. -/
theorem TeamInv.turn (h : TeamInv G s nbrs t) {r r' : Role V} (hr : t.role w = r)
    (hrole : RoleOk G s nbrs t.level t.stop r')
    (hstart : r'.started = true → r.started = true ∨ Closed G s t)
    (hsource : ¬ t.stop → ∀ u ∈ r.source, u ∈ r'.source ∨
      (∃ x, x ≠ w ∧ u ∈ (t.role x).source) ∨ ∀ v ∈ nbrs u, v ∈ r'.todo)
    (htodo : ∀ v ∈ r.todo, t.check v = true ∨ v ∈ r'.todo) (hgain : ∀ v ∈ r.gain, v ∈ r'.gain) :
    TeamInv G s nbrs { t with role := Function.update t.role w r' } :=
  h.move hr t.check hrole hstart (fun _ hv => hv) (fun _ hv => Or.inl hv) hsource htodo hgain

theorem TeamInv.closed_of_not_stop (h : TeamInv G s nbrs t) (hs : ¬ t.stop) : Closed G s t :=
  h.closed.resolve_right fun hc => hs hc.1

theorem TeamInv.closed_of_started (h : TeamInv G s nbrs t) (hw : (t.role w).started = true) :
    Closed G s t :=
  h.closed.resolve_right fun hc => by
    rw [hc.2 w] at hw
    cases hw

/-! ## The steps -/

theorem TeamInv.enter {next : List V} (h : TeamInv G s nbrs t) (hr : t.role w = .ready next)
    (hs : ¬ t.stop) :
    TeamInv G s nbrs { t with role := Function.update t.role w (.work next [] []) } := by
  have hrole := h.roles w
  rw [hr] at hrole
  apply h.turn hr
  · exact ⟨hrole hs, nofun, nofun⟩
  · exact fun _ => Or.inr (h.closed_of_not_stop hs)
  · exact fun _ u hu => Or.inl hu
  · nofun
  · nofun

theorem TeamInv.quit {next : List V} (h : TeamInv G s nbrs t) (hr : t.role w = .ready next)
    (hs : t.stop ∨ next = []) :
    TeamInv G s nbrs { t with role := Function.update t.role w (.out next) } := by
  apply h.turn hr
  · exact fun hn => hs.resolve_left hn
  · nofun
  · intro hn u hu
    rw [hs.resolve_left hn] at hu
    cases hu
  · nofun
  · nofun

theorem TeamInv.give {u : Nat} {v : V} {cur todo next left : List V} (h : TeamInv G s nbrs t)
    (hwu : w ≠ u) (hr : t.role w = .work (cur ++ [v]) todo next) (hu : t.role u = .out left) :
    TeamInv G s nbrs { t with
      role := Function.update (Function.update t.role u (.ready (left ++ [v]))) w
        (.work cur todo next) } := by
  have hrole := h.roles w
  rw [hr] at hrole
  obtain ⟨hcur, htodo, hnext⟩ := hrole
  have hleft := h.roles u
  rw [hu] at hleft
  -- first the receiver, so that the vertex is always held by someone
  have hgive : TeamInv G s nbrs { t with
      role := Function.update t.role u (.ready (left ++ [v])) } := by
    apply h.turn hu
    · intro hs x hx
      rw [hleft hs, List.nil_append, List.mem_singleton] at hx
      rw [hx]
      exact hcur v (by simp)
    · nofun
    · nofun
    · nofun
    · nofun
  apply hgive.turn ((Function.update_of_ne hwu ..).trans hr)
  · exact ⟨fun x hx => hcur x (by simp [hx]), htodo, hnext⟩
  · exact fun _ => Or.inl rfl
  · intro _ x hx
    rcases List.mem_append.mp hx with hx | hx
    · exact Or.inl hx
    · rw [List.mem_singleton.mp hx]
      refine Or.inr (Or.inl ⟨u, hwu.symm, ?_⟩)
      dsimp only
      rw [Function.update_self]
      exact List.mem_append_right left (List.mem_singleton_self v)
  · exact fun x hx => Or.inr hx
  · exact fun x hx => hx

theorem TeamInv.take {v : V} {cur next : List V} (h : TeamInv G s nbrs t)
    (hr : t.role w = .work (v :: cur) [] next) :
    TeamInv G s nbrs { t with role := Function.update t.role w (.work cur (nbrs v) next) } := by
  have hrole := h.roles w
  rw [hr] at hrole
  obtain ⟨hcur, -, hnext⟩ := hrole
  apply h.turn hr
  · exact ⟨fun x hx => hcur x (List.mem_cons_of_mem v hx),
      fun x hx => ⟨v, hcur v List.mem_cons_self, hx⟩, hnext⟩
  · exact fun _ => Or.inl rfl
  · intro _ u hu
    rcases List.mem_cons.mp hu with rfl | hu
    · exact Or.inr (Or.inr fun v hv => hv)
    · exact Or.inl hu
  · nofun
  · exact fun x hx => hx

theorem TeamInv.skip {v : V} {cur todo next : List V} (h : TeamInv G s nbrs t)
    (hr : t.role w = .work cur (v :: todo) next) (hc : t.check v = true) :
    TeamInv G s nbrs { t with role := Function.update t.role w (.work cur todo next) } := by
  have hrole := h.roles w
  rw [hr] at hrole
  obtain ⟨hcur, htodo, hnext⟩ := hrole
  apply h.turn hr
  · exact ⟨hcur, fun x hx => htodo x (List.mem_cons_of_mem v hx), hnext⟩
  · exact fun _ => Or.inl rfl
  · exact fun _ u hu => Or.inl hu
  · intro x hx
    rcases List.mem_cons.mp hx with rfl | hx
    · exact Or.inl hc
    · exact Or.inr hx
  · exact fun x hx => hx

/-- What is not checked and next to the level is at the next level: everything before it is
checked. -/
theorem TeamInv.at_next {u v : V} (h : TeamInv G s nbrs t)
    (hnbrs : ∀ u v, v ∈ nbrs u → u = v ∨ G.Adj u v) (hw : (t.role w).started = true)
    (hu : At G s t.level u) (hv : v ∈ nbrs u) (hc : t.check v = false) :
    At G s (t.level + 1) v := by
  have hfresh : ∀ e ≤ t.level, ¬ At G s e v := by
    intro e he hat
    rw [h.closed_of_started hw e v he hat] at hc
    cases hc
  rcases hnbrs u v hv with rfl | ha
  · exact absurd hu (hfresh _ (Nat.le_refl _))
  · obtain ⟨e, he, hle, -⟩ := hu.adj ha
    have hgt : t.level < e := by
      by_contra hcon
      exact hfresh e (by omega) he
    obtain rfl : e = t.level + 1 := by omega
    exact he

theorem TeamInv.test {v : V} {cur todo next : List V} (h : TeamInv G s nbrs t)
    (hnbrs : ∀ u v, v ∈ nbrs u → u = v ∨ G.Adj u v)
    (hr : t.role w = .work cur (v :: todo) next) (hc : t.check v = false) :
    TeamInv G s nbrs { t with role := Function.update t.role w (.mark v cur todo next) } := by
  have hrole := h.roles w
  rw [hr] at hrole
  obtain ⟨hcur, htodo, hnext⟩ := hrole
  obtain ⟨u, hu, huv⟩ := htodo v List.mem_cons_self
  have hv := h.at_next (w := w) hnbrs (by rw [hr]; rfl) hu huv hc
  apply h.turn hr
  · exact ⟨hcur, fun x hx => htodo x (List.mem_cons_of_mem v hx), hnext, hv⟩
  · exact fun _ => Or.inl rfl
  · exact fun _ u hu => Or.inl hu
  · exact fun x hx => Or.inr hx
  · exact fun x hx => hx

theorem TeamInv.mark [DecidableEq V] {v : V} {cur todo next : List V} (h : TeamInv G s nbrs t)
    (hr : t.role w = .mark v cur todo next) :
    TeamInv G s nbrs { t with
      check := Function.update t.check v true
      role := Function.update t.role w (.work cur todo (next ++ [v])) } := by
  have hrole := h.roles w
  rw [hr] at hrole
  obtain ⟨hcur, htodo, hnext, hv⟩ := hrole
  apply h.move hr
  · refine ⟨hcur, htodo, fun x hx => ?_⟩
    rcases List.mem_append.mp hx with hx | hx
    · exact hnext x hx
    · rw [List.mem_singleton.mp hx]
      exact hv
  · exact fun _ => Or.inl rfl
  · intro x hx
    rw [Function.update_apply, hx]
    split <;> rfl
  · intro x hx
    by_cases hxv : x = v
    · rw [hxv]
      exact Or.inr ⟨hv, List.mem_append_right next (List.mem_singleton_self v)⟩
    · rw [Function.update_of_ne hxv] at hx
      exact Or.inl hx
  · exact fun _ u hu => Or.inl hu
  · intro x hx
    rcases List.mem_cons.mp hx with rfl | hx
    · exact Or.inl (Function.update_self ..)
    · exact Or.inr hx
  · exact fun x hx => List.mem_append_left [v] hx

theorem TeamInv.finish {next : List V} (h : TeamInv G s nbrs t)
    (hr : t.role w = .work [] [] next) :
    TeamInv G s nbrs { t with role := Function.update t.role w (.done next) } := by
  have hrole := h.roles w
  rw [hr] at hrole
  apply h.turn hr
  · exact hrole.2.2
  · exact fun _ => Or.inl rfl
  · nofun
  · nofun
  · exact fun x hx => hx

/-! ## The end of a level -/

theorem Role.source_settled {r : Role V} (h : r.settled = true) : r.source = [] ∧ r.todo = [] := by
  cases r with
  | out | done => exact ⟨rfl, rfl⟩
  | ready | work | mark => cases h

/-- When everyone is done, every neighbour of the level is checked. -/
theorem TeamInv.next_checked (h : TeamInv G s nbrs t) (hadj : ∀ u v, G.Adj u v → v ∈ nbrs u)
    (hs : ¬ t.stop) (hr : ∀ w, (t.role w).settled = true) {v : V}
    (hv : At G s (t.level + 1) v) : t.check v = true := by
  obtain ⟨u, hu, ha⟩ := hv.pred
  rcases h.pending.resolve_left hs u hu with ⟨w, hw⟩ | hn
  · rw [(Role.source_settled (hr w)).1] at hw
    cases hw
  · rcases hn v (hadj u v ha) with hc | ⟨w, hw⟩
    · exact hc
    · rw [(Role.source_settled (hr w)).2] at hw
      cases hw

theorem TeamInv.advance (h : TeamInv G s nbrs t) (hadj : ∀ u v, G.Adj u v → v ∈ nbrs u)
    (hr : ∀ w, (t.role w).settled = true) :
    TeamInv G s nbrs { t with level := t.level + 1, role := fun w => (t.role w).advance } where
  roles w := by
    have hrole := h.roles w
    have hset := hr w
    dsimp only
    cases hw : t.role w with
    | out left =>
      rw [hw] at hrole
      exact hrole
    | done next =>
      rw [hw] at hrole
      exact fun _ => hrole
    | ready | work | mark =>
      rw [hw] at hset
      cases hset
  marked v hv := by
    obtain ⟨e, he, hat⟩ := h.marked v hv
    exact ⟨e, Nat.le_succ_of_le he, hat⟩
  closed := by
    by_cases hs : t.stop
    · refine Or.inr ⟨hs, fun w => ?_⟩
      have hset := hr w
      dsimp only
      cases hw : t.role w with
      | out | done => rfl
      | ready | work | mark =>
        rw [hw] at hset
        cases hset
    · refine Or.inl fun e v he hv => ?_
      by_cases hel : e ≤ t.level
      · exact h.closed_of_not_stop hs e v hel hv
      · obtain rfl : e = t.level + 1 := Nat.le_antisymm he (by omega)
        exact h.next_checked hadj hs hr hv
  pending := by
    by_cases hs : t.stop
    · exact Or.inl hs
    refine Or.inr fun u hu => Or.inl ?_
    obtain ⟨w, hw⟩ := h.found.resolve_left hs u hu (h.next_checked hadj hs hr hu)
    refine ⟨w, ?_⟩
    have hset := hr w
    dsimp only
    cases hrw : t.role w with
    | done next =>
      rw [hrw] at hw
      exact hw
    | out | ready =>
      rw [hrw] at hw
      cases hw
    | work | mark =>
      rw [hrw] at hset
      cases hset
  found := by
    refine Or.inr fun v hv hc => ?_
    obtain ⟨e, he, hat⟩ := h.marked v hc
    have : t.level + 1 + 1 = e := hv.inj hat
    omega

theorem TeamInv.halt {stop : Prop} (h : TeamInv G s nbrs t) (hs : t.stop → stop) :
    TeamInv G s nbrs { t with stop := stop } where
  roles w := by
    have hrole := h.roles w
    dsimp only
    cases hr : t.role w with
    | out | ready =>
      rw [hr] at hrole
      exact fun hn => hrole fun hc => hn (hs hc)
    | work | mark | done =>
      rw [hr] at hrole
      exact hrole
  marked := h.marked
  closed := h.closed.imp id fun hc => ⟨hs hc.1, hc.2⟩
  pending := h.pending.imp hs id
  found := h.found.imp hs id

/-! ## Whole runs -/

/-- Every step keeps the invariant.  `nbrs` lists the neighbours, and perhaps the vertex. -/
theorem TeamStep.inv [DecidableEq V] {t' : Team V} (hnbrs : ∀ u v, v ∈ nbrs u → u = v ∨ G.Adj u v)
    (hadj : ∀ u v, G.Adj u v → v ∈ nbrs u) (hstep : TeamStep nbrs t t')
    (h : TeamInv G s nbrs t) : TeamInv G s nbrs t' := by
  cases hstep with
  | enter w next hr hs => exact h.enter hr hs
  | quit w next hr hs => exact h.quit hr hs
  | give w u v cur todo next left hwu hr hu => exact h.give hwu hr hu
  | take w v cur next hr => exact h.take hr
  | skip w v cur todo next hr hc => exact h.skip hr hc
  | test w v cur todo next hr hc => exact h.test hnbrs hr hc
  | mark w v cur todo next hr => exact h.mark hr
  | finish w next hr => exact h.finish hr
  | advance hr => exact h.advance hadj hr
  | halt stop hs => exact h.halt hs

/-- The start is with worker 0. -/
def Team.initial [DecidableEq V] (s : V) (stop : Prop) : Team V where
  level := 0
  check := Function.update (fun _ => false) s true
  stop := stop
  role := Function.update (fun _ => .out []) 0 (.ready [s])

theorem teamInv_initial [DecidableEq V] {stop : Prop} :
    TeamInv G s nbrs (Team.initial s stop) where
  roles := forall_update (P := fun _ r => RoleOk G s nbrs 0 stop r)
    (fun _ v hv => by
      rw [List.mem_singleton.mp hv]
      exact at_zero.mpr rfl)
    fun _ _ _ => rfl
  marked v hv := by
    by_cases hvs : v = s
    · exact ⟨0, Nat.zero_le _, at_zero.mpr hvs.symm⟩
    · simp [Team.initial, hvs] at hv
  closed := by
    refine Or.inl fun e v he hv => ?_
    obtain rfl : e = 0 := Nat.le_zero.mp he
    rw [← at_zero.mp hv]
    show Function.update (fun _ => false) s true s = true
    rw [Function.update_self]
  pending := by
    refine Or.inr fun u hu => Or.inl ⟨0, ?_⟩
    rw [← at_zero.mp hu]
    exact List.mem_singleton_self s
  found := by
    refine Or.inr fun v hv hc => ?_
    have hvs : v ≠ s := by
      intro hvs
      have := hv.inj (at_zero.mpr hvs.symm)
      omega
    simp [Team.initial, hvs] at hc

/-- When everyone is out and nothing has stopped the search, every vertex that can be reached is
checked: the level after the last one is empty. -/
theorem TeamInv.all_checked (h : TeamInv G s nbrs t) (hadj : ∀ u v, G.Adj u v → v ∈ nbrs u)
    (hs : ¬ t.stop) (hout : ∀ w, ∃ left, t.role w = .out left) {v : V} (hv : G.Reachable s v) :
    t.check v = true := by
  have hset : ∀ w, (t.role w).settled = true := by
    intro w
    obtain ⟨left, hw⟩ := hout w
    rw [hw]
    rfl
  have hempty : ∀ u, ¬ At G s (t.level + 1) u := by
    intro u hu
    obtain ⟨w, hw⟩ := h.found.resolve_left hs u hu (h.next_checked hadj hs hset hu)
    obtain ⟨left, hl⟩ := hout w
    rw [hl] at hw
    cases hw
  by_cases hle : G.dist s v ≤ t.level
  · exact h.closed_of_not_stop hs _ v hle (at_dist hv)
  · obtain ⟨u, hu⟩ := (at_dist hv).below (t.level + 1) (by omega)
    exact absurd hu (hempty u)

end

end MulticorePrac
