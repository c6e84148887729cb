import Yaos.Lib.Pointers
import Yaos.Lua.Promise.Calls
import Yaos.Lua.Promise.Errors
import Yaos.Lua.Promise.Once

set_option autoImplicit false

/-! # Promises that stand for others

A promise that is resolved with another one is `RESOLVING`, and `handle` follows `_value` until it finds
one that is not. Nothing in `resolve` looks where the other promise leads to. -/

namespace Yaos.Lua

open Pointers

/-- The promise that this one stands for. -/
def Promise.adopts (x : Promise) : Option Nat :=
  match x.state, x.value with
  | .resolving, .promise q => some q
  | _, _ => none

/-- The promise that `p` has been resolved with. -/
def State.adopted (s : State) (p : Nat) : Option Nat := (s.promises p).adopts

/-- The loop of `handle` ends, for every promise. -/
def AdoptionEnds (s : State) : Prop := ∀ p, ∃ fuel q, s.follow fuel p = some q

/-- A promise that stands for another has that one as its value, and no chain of promises is a ring. -/
structure Anchored (s : State) : Prop where
  value : ∀ p, (s.promises p).state = .resolving → ∃ q, (s.promises p).value = .promise q
  stops : ∀ p, Stops s.adopted p

/-- A promise may be resolved with `v`: if this is a promise, its chain does not meet `p`. -/
def NoRing (t : State) (p : Nat) (v : Value) : Prop := ∀ q, v = .promise q → ¬ Meets t.adopted q p

section Anchored

variable {s s' : State} {p q : Nat} {v : Value}

theorem adopts_eq_some {x : Promise} (h : x.adopts = some q) : x.state = .resolving ∧ x.value = .promise q := by
  unfold Promise.adopts at h
  split at h
  case h_1 hstate hvalue =>
      obtain rfl := Option.some.inj h
      exact ⟨hstate, hvalue⟩
  case h_2 => cases h

theorem adopts_none {x : Promise} (h : x.state ≠ .resolving) : x.adopts = none := by
  cases hx : x.adopts with
  | none => rfl
  | some q => exact absurd (adopts_eq_some hx).1 h

theorem adopts_resolving {x : Promise} (hstate : x.state = .resolving) (hvalue : x.value = .promise q) :
    x.adopts = some q := by
  rw [Promise.adopts, hstate, hvalue]

theorem adopted_setPromise (x : Promise) :
    (s.setPromise p x).adopted = Function.update s.adopted p x.adopts := by
  funext r
  by_cases hr : r = p
  · subst hr
    simp [State.adopted, State.setPromise]
  · simp [State.adopted, State.setPromise, hr]

/-- The loop follows the chain. -/
theorem follow_eq_chase (h : ∀ p, (s.promises p).state = .resolving → ∃ q, (s.promises p).value = .promise q)
    (fuel : Nat) : s.follow fuel p = chase s.adopted fuel p := by
  induction fuel generalizing p with
  | zero => rfl
  | succ fuel ih =>
      rw [State.follow]
      by_cases hstate : (s.promises p).state = .resolving
      · obtain ⟨q, hq⟩ := h p hstate
        rw [if_pos hstate, hq, chase_some fuel (adopts_resolving hstate hq)]
        exact ih
      · rw [if_neg hstate, chase_none fuel (adopts_none hstate)]

/-- The loop meets no promise twice. -/
theorem Anchored.follow (h : Anchored s) {n : Nat} (hn : ∀ p, n ≤ p → (s.promises p).state = .pending)
    (p : Nat) : ∃ q, s.follow (n + 1) p = some q := by
  have hon : ∀ q, Meets s.adopted p q → s.adopted q ≠ none → q ∈ Finset.range n := by
    intro q _ hq
    by_contra hle
    have hpending := hn q (by simpa using hle)
    exact hq (adopts_none (by simp [hpending]))
  rw [follow_eq_chase h.value]
  simpa using (h.stops p).chase hon

theorem Anchored.ends (h : Anchored s) {n : Nat} (hn : ∀ p, n ≤ p → (s.promises p).state = .pending) :
    AdoptionEnds s := fun p => ⟨n + 1, h.follow hn p⟩

theorem Anchored.congr (hsame : s'.promises = s.promises) (h : Anchored s) : Anchored s' := by
  have hadopted : s'.adopted = s.adopted := by
    funext p
    rw [State.adopted, hsame, State.adopted]
  exact ⟨hsame ▸ h.value, hadopted ▸ h.stops⟩

theorem Anchored.setPromise {x : Promise} (h : Anchored s)
    (hvalue : x.state = .resolving → ∃ q, x.value = .promise q)
    (hring : ∀ q, x.adopts = some q → ¬ Meets s.adopted q p) : Anchored (s.setPromise p x) := by
  refine ⟨fun r hr => ?_, fun r => ?_⟩
  · by_cases hrp : r = p
    · subst hrp
      simp only [State.setPromise, Function.update_self] at hr ⊢
      exact hvalue hr
    · simp only [State.setPromise, Function.update_of_ne hrp] at hr ⊢
      exact h.value r hr
  · rw [adopted_setPromise]
    exact Stops.update h.stops hring r

/-- A change that leaves state and value as they are. -/
theorem Anchored.sameValue {x : Promise} (h : Anchored s) (hstate : x.state = (s.promises p).state)
    (hvalue : x.value = (s.promises p).value) : Anchored (s.setPromise p x) := by
  have hadopts : x.adopts = s.adopted p := by
    rw [State.adopted, Promise.adopts, hstate, hvalue, Promise.adopts]
  refine h.setPromise (fun hx => hvalue ▸ h.value p (hstate ▸ hx)) fun q hq => ?_
  exact (h.stops p).not_meets (hadopts ▸ hq)

theorem Anchored.settleResolve (h : Anchored s) (hring : NoRing s p v) : Anchored (s.settleResolve p v) := by
  have hset : Anchored (s.setPromise p
      { s.promises p with state := if v.isPromise then .resolving else .resolved, value := v }) := by
    refine h.setPromise (fun hstate => ?_) fun q hq => hring q (adopts_eq_some hq).2
    cases v with
    | promise q => exact ⟨q, rfl⟩
    | nil => cases hstate
    | num n => cases hstate
    | other n => cases hstate
  exact ⟨hset.value, hset.stops⟩

/-- Any other `resolve` makes a ring, in which the loop never ends. -/
theorem Anchored.ring (h : Anchored s) (hring : ¬ NoRing s p v) : ¬ AdoptionEnds (s.settleResolve p v) := by
  obtain ⟨q, rfl, hmeets⟩ : ∃ q, v = .promise q ∧ Meets s.adopted q p := by
    by_contra hno
    exact hring fun q hq hmeets => hno ⟨q, hq, hmeets⟩
  intro hends
  obtain ⟨fuel, r, hr⟩ := hends p
  have hvalue : ∀ r, ((s.settleResolve p (.promise q)).promises r).state = .resolving →
      ∃ q', ((s.settleResolve p (.promise q)).promises r).value = .promise q' := by
    intro r hr
    by_cases hrp : r = p
    · subst hrp
      exact ⟨q, by simp [State.settleResolve, State.settle, State.setPromise]⟩
    · simp only [State.settleResolve, State.settle, State.setPromise, Function.update_of_ne hrp] at hr ⊢
      exact h.value r hr
  rw [follow_eq_chase hvalue] at hr
  -- a loop that ends in some number of turns has followed a chain that stops
  refine not_stops_update hmeets ?_
  have hadopted : (s.settleResolve p (.promise q)).adopted = Function.update s.adopted p (some q) :=
    adopted_setPromise _
  exact hadopted ▸ stops_of_chase hr

theorem Anchored.settleReject (h : Anchored s) : Anchored (s.settle p .rejected v) := by
  have hset : Anchored (s.setPromise p { s.promises p with state := .rejected, value := v }) := by
    refine h.setPromise (fun hstate => by cases hstate) fun q hq => ?_
    cases (adopts_eq_some hq).1
  exact ⟨hset.value, hset.stops⟩

theorem Anchored.register (h : Anchored s) (d : Option Deferred) : Anchored (s.register q d).2 := by
  rw [State.register]
  split
  · exact h.sameValue rfl rfl
  · exact h.sameValue rfl rfl
  · exact h.sameValue rfl rfl

theorem Anchored.newPromise (h : Anchored s) : Anchored s.newPromise.2 := by
  have hset : Anchored (s.setPromise s.count
      { state := .pending, value := .nil, deferreds := .zero, refs := none }) :=
    h.setPromise (fun hstate => by cases hstate) fun q hq => by cases hq
  exact ⟨hset.value, hset.stops⟩

theorem Anchored.startExecutor (h : Anchored s) : Anchored (s.startExecutor p) := by
  rw [State.startExecutor]
  dsimp only
  have hflag := h.congr (ref_same s (.flag p) (.num 0)).promises
  have hself := hflag.congr (ref_same (s.ref (.flag p) (.num 0)).2 (.self p) (.promise p)).promises
  have hset := hself.sameValue (p := p) (x := { (((s.ref (.flag p) (.num 0)).2.ref (.self p)
    (.promise p)).2.promises p) with refs := some ((s.ref (.flag p) (.num 0)).1,
      ((s.ref (.flag p) (.num 0)).2.ref (.self p) (.promise p)).1) }) rfl rfl
  exact ⟨hset.value, hset.stops⟩

/-- A call keeps all chains as they should be, and the loop in it ends, where no `resolve` in it makes a
    ring. -/
theorem Anchored.closed (n : Nat) : Closed (Bounded n) Anchored NoRing False where
  congr := fun hsame h => h.congr hsame
  resolve := fun _ h hring => h.settleResolve hring
  reject := fun _ h => h.settleReject
  register := fun h _ => h.register _
  forget := fun _ _ h => h.sameValue rfl rfl
  follow := fun {s p} hb h hnone => by
    obtain ⟨q, hq⟩ := h.follow (fun p hp => hb.pending p (hb.count ▸ hp)) p
    rw [hq] at hnone
    cases hnone

end Anchored

/-! ## Steps -/

/-- The call of a C function that a step makes, and the state in which it makes it. -/
def Step.call (s : State) : Step → Option (Call × State)
  | .resolve p v =>
    match (s.promises p).refs with
    | none => none
    | some (index, self) =>
      if s.Exists v ∧ ((s.use (.flag p) index).slots index).toInteger = 0 then
        some (.resolve ((s.started p index self).slots self) v, s.started p index self)
      else none
  | .reject p v =>
    match (s.promises p).refs with
    | none => none
    | some (index, self) =>
      if s.Exists v ∧ ((s.use (.flag p) index).slots index).toInteger = 0 then
        some (.reject ((s.started p index self).slots self) v, s.started p index self)
      else none
  | .next p f g =>
    if p < s.count then
      some (.handle p (some { onFulfilled := f, onRejected := g, promise := s.newPromise.1 }), s.newPromise.2)
    else none
  | _ => none

/-- No `resolve` that the step makes is with a promise whose chain leads back to the one that is
    resolved. -/
def Step.NoRing (depth : Nat) (s : State) (c : Step) : Prop :=
  ∀ call s', c.call s = some (call, s') → AllOk Lua.NoRing depth call s'

section Steps

variable {depth n p index self : Nat} {s s' : State} {v : Value}

/-- What comes back has the property `P`, and no promises are followed for ever. -/
def Fine (P : State → Prop) (r : Except Fault State) : Prop := r ≠ .error .hang ∧ ∀ s', r = .ok s' → P s'

theorem Fine.ok {P : State → Prop} (h : P s) : Fine P (.ok s) := by
  refine ⟨fun heq => (by cases heq), fun s' hs' => ?_⟩
  rw [← Except.ok.inj hs']
  exact h

theorem Ret.Sound.caught {α : Type} {P : State → Prop} {r : Ret α} (h : r.Sound False P) :
    Fine P r.caught := by
  cases r with
  | ret a s => exact .ok h
  | raise e s => exact .ok h
  | fault f => exact ⟨fun heq => h (Except.error.inj heq), fun s' hs' => by cases hs'⟩

theorem started_promises (s : State) (p i j : Nat) : (s.started p i j).promises = s.promises := by
  have haim : ∀ (t : State) (v : Value), (t.aim p v).promises = t.promises := by
    intro t v
    rw [State.aim]
    split <;> rfl
  rw [State.started, haim, (use_same ..).promises, (rawseti_same ..).promises, (use_same ..).promises]

theorem Bounded.started (h : Bounded n s) (p i j : Nat) : Bounded n (s.started p i j) :=
  (((h.use _ _).rawseti).use _ _).aim _ _

/-- A callback resolves what it finds in its slot. -/
theorem Anchored.resolveSlot (hb : Bounded n s) (h : Anchored s) {r : Nat}
    (hok : AllOk NoRing depth (.resolve (s.slots r) v) s) :
    (resolve depth (s.slots r) v s).Sound False Anchored := by
  by_cases hself : ∃ q, s.slots r = .promise q
  · obtain ⟨q, hq⟩ := hself
    rw [hq] at hok ⊢
    exact ((Anchored.closed n).sound (Bounded.stable n) depth).resolve q v s hb h (hb.slot r q hq) hok
  · cases depth with
    | zero =>
        rw [resolve]
        exact stackOverflow_sound
    | succ m =>
        rw [resolve]
        · split
          · exact h
          · exact fun hhang => by cases hhang
        · exact fun q hq => hself ⟨q, hq⟩

theorem Anchored.rejectSlot (hb : Bounded n s) (h : Anchored s) {r : Nat}
    (hok : AllOk NoRing depth (.reject (s.slots r) v) s) :
    (reject depth (s.slots r) v s).Sound False Anchored := by
  by_cases hself : ∃ q, s.slots r = .promise q
  · obtain ⟨q, hq⟩ := hself
    rw [hq] at hok ⊢
    exact ((Anchored.closed n).sound (Bounded.stable n) depth).reject q v s hb h (hb.slot r q hq) hok
  · cases depth with
    | zero =>
        rw [reject]
        exact stackOverflow_sound
    | succ m =>
        rw [reject]
        · exact h
        · exact fun q hq => hself ⟨q, hq⟩

theorem Anchored.myResolve (hb : Bounded n s) (h : Anchored s) (hv : s.Exists v)
    (hc : Step.NoRing depth s (.resolve p v)) : (myResolve depth p v s).Sound False Anchored := by
  rw [Lua.myResolve]
  cases hrefs : (s.promises p).refs with
  | none => exact h
  | some refs =>
      obtain ⟨index, self⟩ := refs
      have hdone : ∀ r : Ret Unit, r.Sound False Anchored →
          (r.andThen fun _ s => .ret () ((s.unref (.flag p) index).unref (.self p) self)).Sound False
            Anchored := by
        intro r hr
        refine hr.andThen (fun _ h' => h') fun _ t _ h' => ?_
        exact (h'.congr (unref_same t (.flag p) index).promises).congr (unref_same ..).promises
      dsimp only
      split
      case isTrue => exact hdone _ (h.congr (use_same s (.flag p) index).promises)
      case isFalse hzero =>
          have hok : AllOk Lua.NoRing depth (.resolve ((s.started p index self).slots self) v)
              (s.started p index self) := by
            refine hc _ _ ?_
            rw [Step.call, hrefs]
            exact if_pos ⟨hv, not_not.1 hzero⟩
          have hresolve := (h.congr (started_promises s p index self)).resolveSlot
            (hb.started p index self) hok
          rw [State.started, aim_slots] at hresolve
          exact hdone _ hresolve

theorem Anchored.myReject (hb : Bounded n s) (h : Anchored s) (hv : s.Exists v)
    (hc : Step.NoRing depth s (.reject p v)) : (myReject depth p v s).Sound False Anchored := by
  rw [Lua.myReject]
  cases hrefs : (s.promises p).refs with
  | none => exact h
  | some refs =>
      obtain ⟨index, self⟩ := refs
      dsimp only
      split
      case isTrue => exact h.congr (use_same s (.flag p) index).promises
      case isFalse hzero =>
          have hok : AllOk Lua.NoRing depth (.reject ((s.started p index self).slots self) v)
              (s.started p index self) := by
            refine hc _ _ ?_
            rw [Step.call, hrefs]
            exact if_pos ⟨hv, not_not.1 hzero⟩
          have hreject := (h.congr (started_promises s p index self)).rejectSlot
            (hb.started p index self) hok
          rw [State.started, aim_slots] at hreject
          exact hreject

theorem Anchored.thennext (hb : Bounded s.count s) (h : Anchored s) {f g : Option Fn} (hp : p < s.count)
    (hc : Step.NoRing depth s (.next p f g)) : (thennext depth p f g s).Sound False Anchored := by
  have hok := hc _ _ (by rw [Step.call]; exact if_pos hp)
  rw [Lua.thennext]
  refine Ret.Sound.andThen (P := Anchored) ?_ (fun _ h' => h') fun _ _ _ h' => h'
  refine ((Anchored.closed (s.count + 1)).sound (Bounded.stable _) depth).handle p _ _ hb.newPromise
    h.newPromise (fun d hd => ?_) hok
  rw [← Option.some.inj hd]
  exact Nat.lt_succ_self _

theorem Anchored.executorThrows (h : Anchored s) : Anchored (s.executorThrows p) := by
  rw [State.executorThrows]
  split
  · exact h
  · dsimp only
    split
    · exact (h.congr (use_same ..).promises).congr (rawseti_same ..).promises
    · exact h.congr (use_same ..).promises

theorem Anchored.step (hb : Bounded s.count s) (h : Anchored s) {c : Step} (hc : c.NoRing depth s) :
    Fine Anchored (step depth s c) := by
  cases c with
  | new => exact .ok h.newPromise.startExecutor
  | plain => exact .ok h.newPromise
  | leave => exact .ok ⟨h.value, h.stops⟩
  | throw =>
      rw [Lua.step]
      split
      · exact .ok h
      · exact .ok ⟨h.executorThrows.value, h.executorThrows.stops⟩
  | resolve p v =>
      rw [Lua.step]
      split
      case isTrue hv =>
          have hfine := (h.myResolve hb hv.1 hc).caught
          cases hr : (Lua.myResolve depth p v s).caught with
          | error f =>
              rw [hr] at hfine
              exact ⟨fun heq => hfine.1 (congrArg _ (Except.error.inj heq)), fun s' hs' => by cases hs'⟩
          | ok t =>
              rw [hr] at hfine
              exact .ok ⟨(hfine.2 t rfl).value, (hfine.2 t rfl).stops⟩
      case isFalse => exact .ok h
  | reject p v =>
      rw [Lua.step]
      split
      case isTrue hv => exact (h.myReject hb hv hc).caught
      case isFalse => exact .ok h
  | next p f g =>
      rw [Lua.step]
      split
      case isTrue hp => exact (h.thennext hb hp hc).caught
      case isFalse => exact .ok h
  | ref v =>
      rw [Lua.step]
      split
      · exact .ok (h.congr (ref_same ..).promises)
      · exact .ok h
  | unref r =>
      rw [Lua.step]
      split
      · exact .ok (h.congr (unref_same ..).promises)
      · exact .ok h

theorem Anchored.fresh : Anchored fresh :=
  ⟨fun _ h => (by cases h), fun _ => Stops.stop rfl⟩

theorem Anchored.steps {cs : List Step} (hb : Bounded s.count s) (h : Anchored s)
    (hring : Run.Allowed (Lua.step depth) (fun s c => c.NoRing depth s) s cs) :
    Fine AdoptionEnds (steps depth s cs) := by
  induction cs generalizing s with
  | nil => exact .ok (h.ends hb.pending)
  | cons c cs ih =>
      obtain ⟨hc, hcs⟩ := hring
      have hfine := h.step hb hc
      rw [Lua.steps, List.foldlM_cons]
      cases hstep : Lua.step depth s c with
      | error f =>
          rw [hstep] at hfine
          exact ⟨fun heq => hfine.1 heq, fun s' hs' => by cases hs'⟩
      | ok s₁ =>
          rw [hstep] at hfine
          -- the step may have made promises, but never more than it has counted
          obtain ⟨m, hm⟩ := hb.step hstep
          exact ih (hm.count ▸ hm) (hfine.2 s₁ rfl) (hcs s₁ hstep)

end Steps

/-- **Adoption.** In a run whose steps resolve no promise with one that leads back to it, no call follows
    promises for ever, and in the state it leads to the loop ends for every promise. -/
theorem adoption_ends {depth : Nat} {cs : List Step}
    (hring : Run.Allowed (step depth) (fun s c => c.NoRing depth s) fresh cs) :
    steps depth fresh cs ≠ .error .hang ∧ ∀ s, steps depth fresh cs = .ok s → AdoptionEnds s :=
  Anchored.fresh.steps Bounded.init hring

/-- A promise without handlers is resolved, and nothing else. -/
theorem allOk_resolve {ok : State → Nat → Value → Prop} {n p : Nat} {v : Value} {s : State}
    (hzero : (s.promises p).deferreds = .zero) (h : ok s p v) : AllOk ok n (.resolve (.promise p) v) s := by
  intro t q w hr
  cases hr with
  | here => exact h
  | inside hcall hr =>
      cases hcall with
      | resolve n =>
          have hzero' : ((s.settleResolve p v).promises p).deferreds = .zero := by
            simpa [State.settleResolve, State.settle, State.setPromise] using hzero
          cases hr with
          | inside hcall _ =>
              cases hcall with
              | one hd =>
                  rw [hzero'] at hd
                  cases hd
              | table hds _ =>
                  rw [hzero'] at hds
                  cases hds

/-- One promise is resolved with another. -/
theorem adoption_ends_two : steps 9 fresh [.new, .plain, .resolve 0 (.promise 1)] ≠ .error .hang ∧
    ∀ s, steps 9 fresh [.new, .plain, .resolve 0 (.promise 1)] = .ok s → AdoptionEnds s := by
  refine adoption_ends ⟨fun _ _ h => (by cases h), fun s₁ hs₁ => ⟨fun _ _ h => (by cases h), fun s₂ hs₂ => ?_⟩⟩
  obtain rfl := Except.ok.inj hs₁
  obtain rfl := Except.ok.inj hs₂
  refine ⟨fun call s' hcall => ?_, fun _ _ => trivial⟩
  obtain ⟨rfl, rfl⟩ := Prod.mk.inj (Option.some.inj hcall)
  refine allOk_resolve rfl fun q hq hmeets => ?_
  obtain rfl := Value.promise.inj hq
  rcases hmeets.first with h | ⟨z, hz, -⟩
  · cases h
  · cases hz

/-- A promise that is resolved with itself is followed for ever. -/
theorem adoption_never_ends : ¬ ∀ depth cs s, 9 ≤ depth → steps depth fresh cs = .ok s → AdoptionEnds s := by
  intro hall
  let cs : List Step := [.new, .resolve 0 (.promise 0)]
  have hend : (steps 9 fresh cs).map (fun s => ((s.promises 0).state, (s.promises 0).value)) =
      .ok (.resolving, .promise 0) := by decide +kernel
  obtain ⟨s, hrun, hend⟩ := map_eq_ok.1 hend
  obtain ⟨hstate, hvalue⟩ := Prod.mk.inj hend
  have hring : ∀ fuel, s.follow fuel 0 = none := by
    intro fuel
    induction fuel with
    | zero => rfl
    | succ fuel ih =>
        rw [State.follow, if_pos hstate, hvalue]
        exact ih
  obtain ⟨fuel, q, hq⟩ := hall 9 cs s (Nat.le_refl 9) hrun 0
  rw [hring fuel] at hq
  cases hq

end Yaos.Lua
