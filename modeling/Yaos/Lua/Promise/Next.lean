import Yaos.Lua.Promise.Adoption
import Yaos.Lua.Promise.OnStack.Proofs

set_option autoImplicit false

/-! # The promise that `next` returns

The branch of `handle` for a pending promise has three exits, and the one for a third handler pops one
value where it has pushed two. `thennext` then returns the handler instead of the promise, and the loop of
`finale` goes on with a value where `lua_next` wants a key. -/

namespace Yaos.Lua

open Pointers OnStack

/-! ## What is asked of `next` -/

/-- The promise that `handle` finds for `p`. -/
def State.EndsAt (s : State) (p q : Nat) : Prop := Meets s.adopted p q ∧ s.adopted q = none

/-- What the promise of a handler is settled with. -/
def Deferred.result (d : Deferred) (x : Promise) : Except Value Value :=
  match d.selected x.state with
  | none => if x.state = .resolved then .ok x.value else .error x.value
  | some f => f x.value

/-- The promise was settled with what a handler returned or threw. -/
def Promise.SettledAs (x : Promise) : Except Value Value → Prop
  | .ok v => x.state = (if v.isPromise then .resolving else .resolved) ∧ x.value = v
  | .error e => x.state = .rejected ∧ x.value = e

/-- From `s` to `s'`, the handler is put on `q` where this is pending, and else its promise is settled. -/
def Follows (q : Nat) (d : Deferred) (s s' : State) : Prop :=
  if (s.promises q).state = .pending then
    (s'.promises d.promise).state = .pending ∧
      (s'.promises q).deferreds.toList = (s.promises q).deferreds.toList ++ [d]
  else (s'.promises d.promise).SettledAs (d.result (s.promises q))

/-- The handler of `p.next(f, g)`. -/
def State.handler (s : State) (f g : Option Fn) : Deferred :=
  { onFulfilled := f, onRejected := g, promise := s.count }

/-- `p.next(f, g)` returns the new promise, and this follows the handler. -/
def NextReturns (depth p : Nat) (f g : Option Fn) (s : State) : Prop :=
  ∃ s', (OnStack.thennext depth).run [.ofFn g, .ofFn f, promise p] s =
      .ret ((), [promise s.count, .ofFn g, .ofFn f, promise p]) s' ∧
    ∀ q, s.newPromise.2.EndsAt p q → Follows q (s.handler f g) s.newPromise.2 s'

/-- Not more than one handler waits for `q`. -/
def State.HasRoom (s : State) (q : Nat) : Prop :=
  (s.promises q).state = .pending → ∀ ds, (s.promises q).deferreds ≠ .table ds

/-- The chain of `p` ends, at a promise that has room for another handler or for which the handler does
    not throw. -/
def NextFine (p : Nat) (f g : Option Fn) (s : State) : Prop :=
  ∃ q, s.newPromise.2.EndsAt p q ∧ s.newPromise.2.HasRoom q ∧
    ((s.newPromise.2.promises q).state ≠ .pending →
      ∀ fn e, (s.handler f g).selected (s.newPromise.2.promises q).state = some fn →
        fn (s.newPromise.2.promises q).value ≠ .error e)

/-- A call that returns leaves the stack as it has found it. -/
def LeavesStack (n : Nat) (s : State) : Call → Prop
  | .handle p d => ∀ st r s', (OnStack.handle n).run (.ofHandler d :: promise p :: st) s = .ret r s' →
      r.2 = .ofHandler d :: promise p :: st
  | .finale p => ∀ st r s', (OnStack.finale n).run (promise p :: st) s = .ret r s' → r.2 = promise p :: st
  | _ => True

/-- The promise at the end of the chain has room for the handler. -/
def RoomFor (s : State) : Call → Prop
  | .handle p _ => ∀ q, s.EndsAt p q → s.HasRoom q
  | _ => True

/-- In a run, the functions call each other so. -/
inductive Made (depth : Nat) : Nat → Call → State → Prop
  | step {cs : List Step} {s t : State} {c : Step} {call : Call} (hrun : steps depth fresh cs = .ok s)
      (hcall : c.call s = some (call, t)) : Made depth depth call t
  | inside {n m : Nat} {c c' : Call} {s s' : State} (h : Made depth n c s) (hcall : Calls n c s m c' s') :
      Made depth m c' s'

section Made

variable {depth n p q : Nat} {c : Call} {s t : State}

theorem endsAt_iff (hs : Valued s) (hpending : ∀ r, s.count ≤ r → (s.promises r).state = .pending) :
    s.EndsAt p q ↔ s.follow (s.count + 1) p = some q := by
  have hon : ∀ r, Meets s.adopted p r → s.adopted r ≠ none → r ∈ Finset.range s.count := by
    intro r _ hr
    by_contra hle
    exact hr (adopts_none (by simp [hpending r (by simpa using hle)]))
  rw [follow_eq_chase hs, State.EndsAt, ← chase_eq_some_iff hon, Finset.card_range]

theorem Step.call_given {c : Step} {call : Call} (hb : Bounded n s) (hs : Valued s)
    (hcall : c.call s = some (call, t)) :
    Valued t ∧ ∃ m, Bounded m t ∧ call.Given (fun d => d.promise < m) (fun _ p => p < m) t := by
  cases c with
  | resolve p v | reject p v =>
      rw [Step.call] at hcall
      cases hrefs : (s.promises p).refs with
      | none =>
          rw [hrefs] at hcall
          cases hcall
      | some refs =>
          rw [hrefs] at hcall
          dsimp only at hcall
          split_ifs at hcall
          obtain ⟨rfl, rfl⟩ := Prod.mk.inj (Option.some.inj hcall)
          exact ⟨hs.congr (started_promises ..), n, hb.started .., fun q hq => (hb.started ..).slot _ q hq⟩
  | next p f g =>
      rw [Step.call] at hcall
      split_ifs at hcall
      obtain ⟨rfl, rfl⟩ := Prod.mk.inj (Option.some.inj hcall)
      refine ⟨hs.newPromise, n + 1, hb.newPromise, fun x hx => ?_⟩
      rw [← Option.some.inj hx]
      exact hb.count ▸ Nat.lt_succ_self _
  | new | plain | leave | throw | ref | unref => cases hcall

/-- What holds in every call of a run. -/
theorem Made.given (h : Made depth n c s) :
    Valued s ∧ ∃ m, Bounded m s ∧ c.Given (fun d => d.promise < m) (fun _ p => p < m) s := by
  induction h with
  | step hrun hcall => exact Step.call_given (Bounded.run hrun) (Valued.run hrun) hcall
  | inside _ hcall ih =>
      obtain ⟨hs, m, hb, hgiven⟩ := ih
      exact ⟨hs.calls hcall, m, (Bounded.stable m).calls hcall hb hgiven⟩

theorem register_room (d : Option Deferred) (hroom : ∀ ds, (s.promises q).deferreds ≠ .table ds) :
    (s.register q d).1 = 0 := by
  rw [State.register]
  split
  case h_1 => rfl
  case h_2 => rfl
  case h_3 ds hds => exact absurd hds (hroom ds)

/-- `handle` leaves the stack as it was, unless the promise it finds is pending and has two handlers. -/
theorem handle_leaves_iff {d : Option Deferred} (hs : Valued s)
    (hpending : ∀ r, s.count ≤ r → (s.promises r).state = .pending) :
    LeavesStack (n + 1) s (.handle p d) ↔ RoomFor s (.handle p d) := by
  have hrun := fun st => (refinesAt (n + 1)).handle p d st s hs
  constructor
  · intro h q hq hstate ds hds
    have hfollow := (endsAt_iff hs hpending).1 hq
    have hhandle : Lua.handle (n + 1) p d s = .ret 1 (s.register q d).2 := by
      rw [Lua.handle, hfollow]
      dsimp only
      rw [if_pos hstate, State.register, hds]
    -- the promise is left on the stack
    have hstack := h [] _ _ (by rw [hrun, hhandle, andThen_ret])
    simp at hstack
  · intro h st r s' hret
    rw [hrun, Lua.handle] at hret
    cases hfollow : s.follow (s.count + 1) p with
    | none =>
        rw [hfollow] at hret
        cases hret
    | some q =>
        have hroom := h q ((endsAt_iff hs hpending).2 hfollow)
        rw [hfollow] at hret
        dsimp only at hret
        by_cases hstate : (s.promises q).state = .pending
        · rw [if_pos hstate, andThen_ret, register_room d (hroom hstate)] at hret
          obtain ⟨rfl, -⟩ := Ret.ret.inj hret
          rfl
        · rw [if_neg hstate, andThen_assoc] at hret
          obtain ⟨a, t, -, hret⟩ := Ret.andThen_eq_ret.1 hret
          obtain ⟨rfl, -⟩ := Ret.ret.inj hret
          rfl

theorem finale_leaves (hs : Valued s) (hp : (s.promises p).state ≠ .pending) :
    LeavesStack n s (.finale p) := by
  intro st r s' hret
  rw [(refinesAt n).finale p st s hs hp] at hret
  obtain ⟨a, t, -, hret⟩ := Ret.andThen_eq_ret.1 hret
  obtain ⟨rfl, -⟩ := Ret.ret.inj hret
  rfl

theorem Made.leaves_iff (h : Made depth (n + 1) c s) : LeavesStack (n + 1) s c ↔ RoomFor s c := by
  obtain ⟨hs, m, hb, hgiven⟩ := h.given
  cases c with
  | handle p d => exact handle_leaves_iff hs (fun r hr => hb.pending r (hb.count ▸ hr))
  | finale p => exact iff_of_true (finale_leaves hs hgiven) trivial
  | resolve self v => exact Iff.rfl
  | reject self v => exact Iff.rfl
  | handleResolved q d => exact Iff.rfl
  | errorHandle call r e => exact Iff.rfl

end Made

/-! ## What `next` returns -/

section Next

variable {n p q : Nat} {f g : Option Fn} {s s' : State} {d : Deferred} {v : Value}

/-- The promise has no handlers yet. -/
theorem resolve_alone (hp : (s.promises p).deferreds = .zero) :
    Lua.resolve (n + 2) (.promise p) v s = .ret () (s.settleResolve p v) := by
  have hzero : ((s.settleResolve p v).promises p).deferreds = .zero := by
    simpa [State.settleResolve, State.settle, State.setPromise] using hp
  rw [Lua.resolve, Lua.finale]
  rw [State.settleResolve] at hzero
  rw [hzero]
  rfl

theorem reject_alone (hp : (s.promises p).deferreds = .zero) :
    Lua.reject (n + 2) (.promise p) v s = .ret () (s.settle p .rejected v) := by
  have hzero : ((s.settle p .rejected v).promises p).deferreds = .zero := by
    simpa [State.settle, State.setPromise] using hp
  rw [Lua.reject, Lua.finale, hzero]

theorem settledAs_settleResolve : ((s.settleResolve p v).promises p).SettledAs (.ok v) := by
  simp [Promise.SettledAs, State.settleResolve, State.settle, State.setPromise]

theorem settledAs_reject : ((s.settle p .rejected v).promises p).SettledAs (.error v) := by
  simp [Promise.SettledAs, State.settle, State.setPromise]

/-- A handler that does not throw settles its promise as it should. -/
theorem handleResolved_settles (hd : (s.promises d.promise).deferreds = .zero)
    (hfine : ∀ fn e, d.selected (s.promises q).state = some fn → fn (s.promises q).value ≠ .error e) :
    ∃ s', Lua.handleResolved (n + 3) q (some d) s = .ret () s' ∧
      (s'.promises d.promise).SettledAs (d.result (s.promises q)) := by
  rw [Lua.handleResolved, Deferred.result]
  dsimp only
  cases hsel : d.selected (s.promises q).state with
  | none =>
      dsimp only
      by_cases hstate : (s.promises q).state = .resolved
      · rw [if_pos hstate, if_pos hstate]
        exact ⟨_, resolve_alone hd, settledAs_settleResolve⟩
      · rw [if_neg hstate, if_neg hstate]
        exact ⟨_, reject_alone hd, settledAs_reject⟩
  | some fn =>
      have hsame := (ref_same s (.handler s.calls.length) (.promise q)).promises
      have hd' : ((s.callHandler q d).2.promises d.promise).deferreds = .zero := by
        have hcalled : (s.callHandler q d).2.promises = s.promises := hsame
        rw [hcalled]
        exact hd
      dsimp only
      cases hv : fn (s.promises q).value with
      | ok v => exact ⟨_, resolve_alone hd', settledAs_settleResolve⟩
      | error e => exact absurd hv (hfine fn e hsel)

theorem register_toList :
    (((s.register q (some d)).2.promises q).deferreds).toList = (s.promises q).deferreds.toList ++ [d] := by
  rw [State.register]
  cases (s.promises q).deferreds with
  | zero => simp [State.setDeferreds, State.setPromise, Deferreds.toList]
  | one d' => simp [State.setDeferreds, State.setPromise, Deferreds.toList]
  | table ds => simp [State.setDeferreds, State.setPromise, Deferreds.toList]

theorem register_state (r : Nat) (x : Option Deferred) :
    ((s.register q x).2.promises r).state = (s.promises r).state := by
  have hset : ∀ ds, ((s.setDeferreds q ds).promises r).state = (s.promises r).state := by
    intro ds
    by_cases hr : r = q
    · subst hr
      simp [State.setDeferreds, State.setPromise]
    · simp [State.setDeferreds, State.setPromise, hr]
  rw [State.register]
  split
  · exact hset _
  · exact hset _
  · exact hset _

/-- With the handler that `next` makes, `handle` does what it should. -/
theorem handle_follows (hfollow : s.newPromise.2.follow (s.newPromise.2.count + 1) p = some q)
    (hroom : s.newPromise.2.HasRoom q) (hfine : (s.newPromise.2.promises q).state ≠ .pending →
      ∀ fn e, (s.handler f g).selected (s.newPromise.2.promises q).state = some fn →
        fn (s.newPromise.2.promises q).value ≠ .error e) :
    ∃ s', Lua.handle (n + 4) p (some (s.handler f g)) s.newPromise.2 = .ret 0 s' ∧
      Follows q (s.handler f g) s.newPromise.2 s' := by
  have hnew : (s.newPromise.2.promises (s.handler f g).promise).deferreds = .zero :=
    congrArg Promise.deferreds (newPromise_self s)
  rw [Lua.handle, hfollow]
  dsimp only
  by_cases hstate : (s.newPromise.2.promises q).state = .pending
  · rw [if_pos hstate, register_room _ (hroom hstate)]
    refine ⟨_, rfl, ?_⟩
    rw [Follows, if_pos hstate, register_state]
    exact ⟨congrArg Promise.state (newPromise_self s), register_toList⟩
  · obtain ⟨s', hs', hsettled⟩ := handleResolved_settles (n := n) hnew (hfine hstate)
    rw [if_neg hstate, hs']
    refine ⟨s', rfl, ?_⟩
    rw [Follows, if_neg hstate]
    exact hsettled

/-- Whenever `next` returns its promise and this follows the handler, the condition holds. -/
theorem NextReturns.fine (hb : Bounded s.count s) (hs : Valued s) (h : NextReturns (n + 1) p f g s) :
    NextFine p f g s := by
  obtain ⟨s', hret, hfollows⟩ := h
  have hpending : ∀ r, s.newPromise.2.count ≤ r → (s.newPromise.2.promises r).state = .pending :=
    fun r hr => hb.newPromise.pending r hr
  rw [OnStack.thennext_run (d := s.handler f g) hs.newPromise rfl, Lua.handle] at hret
  cases hfollow : s.newPromise.2.follow (s.newPromise.2.count + 1) p with
  | none =>
      rw [hfollow] at hret
      cases hret
  | some q =>
      have hq : s.newPromise.2.EndsAt p q := (endsAt_iff hs.newPromise hpending).2 hfollow
      rw [hfollow] at hret
      dsimp only at hret
      refine ⟨q, hq, fun hstate ds hds => ?_, fun hstate fn e hfn hthrow => ?_⟩
      · -- the third handler: what is on top is the handler itself
        rw [if_pos hstate, State.register, hds] at hret
        have hstack := congrArg List.length (Prod.mk.inj (Ret.ret.inj hret).1).2
        simp at hstack
      · -- the error settles `q`; nothing leads to the new promise
        rw [if_neg hstate] at hret
        have hunreached : (Lua.handleResolved n q (some (s.handler f g)) s.newPromise.2).Holds
            (Unreached s.count) := hb.unreached.handleResolved hstate hfn hthrow
        obtain ⟨a, t, hhandled, hret⟩ := Ret.andThen_eq_ret.1 hret
        obtain ⟨b, t', hresolved, hsame⟩ := Ret.andThen_eq_ret.1 hhandled
        obtain ⟨-, rfl⟩ := Ret.ret.inj hsame
        obtain ⟨-, rfl⟩ := Ret.ret.inj hret
        rw [hresolved] at hunreached
        have hsettled := hfollows q hq
        rw [Follows, if_neg hstate, Deferred.result, hfn] at hsettled
        dsimp only at hsettled
        rw [hthrow] at hsettled
        exact absurd (hunreached.pending.symm.trans hsettled.1) (by simp)

theorem NextFine.returns (hb : Bounded s.count s) (hs : Valued s) (h : NextFine p f g s) :
    NextReturns (n + 4) p f g s := by
  obtain ⟨q, hq, hroom, hfine⟩ := h
  have hpending : ∀ r, s.newPromise.2.count ≤ r → (s.newPromise.2.promises r).state = .pending :=
    fun r hr => hb.newPromise.pending r hr
  have hfollow := (endsAt_iff hs.newPromise hpending).1 hq
  obtain ⟨s', hhandle, hfollows⟩ := handle_follows (n := n) hfollow hroom hfine
  refine ⟨s', ?_, fun q' hq' => ?_⟩
  · rw [OnStack.thennext_run (d := s.handler f g) hs.newPromise rfl, hhandle]
    rfl
  · obtain rfl := Option.some.inj (hfollow.symm.trans ((endsAt_iff hs.newPromise hpending).1 hq'))
    exact hfollows

end Next

/-- **The promise of `next`.** In every reachable state `p.next(f, g)` returns its promise, and this follows
    the handler, just where the chain of `p` ends at a promise with room for another handler or one for
    which the handler does not throw; and each call of `handle` leaves the stack as it was just where the
    promise that it finds has room, each call of `finale` always. -/
theorem next_returns_iff {depth : Nat} (hdepth : 4 ≤ depth) :
    (∀ cs s p f g, steps depth fresh cs = .ok s → p < s.count →
      (NextReturns depth p f g s ↔ NextFine p f g s)) ∧
    ∀ n c s, Made depth (n + 1) c s → (LeavesStack (n + 1) s c ↔ RoomFor s c) := by
  obtain ⟨n, rfl⟩ := Nat.exists_eq_add_of_le' hdepth
  refine ⟨fun cs s p f g hrun _ => ?_, fun _ _ _ h => h.leaves_iff⟩
  exact ⟨fun h => h.fine (Bounded.run hrun) (Valued.run hrun), fun h => h.returns (Bounded.run hrun) (Valued.run hrun)⟩

theorem next_returns_second : ∃ s, steps 9 fresh [.plain, .next 0 none none] = .ok s ∧
    NextReturns 9 0 none none s := by
  obtain ⟨s, hrun, hcount, hds, hstate⟩ : ∃ s, steps 9 fresh [.plain, .next 0 none none] = .ok s ∧
      0 < s.count ∧ (∀ ds, (s.newPromise.2.promises 0).deferreds ≠ .table ds) ∧
        (s.newPromise.2.promises 0).state = .pending :=
    ⟨_, rfl, by decide, fun ds h => (by cases h), rfl⟩
  refine ⟨s, hrun, ((next_returns_iff (by decide)).1 _ s 0 none none hrun hcount).2 ⟨0, ?_⟩⟩
  refine ⟨⟨.refl, adopts_none (by simp [hstate])⟩, fun _ => hds, fun hsettled => absurd hstate hsettled⟩

/-- How high the stack is when the code returns. -/
def Ret.height {α : Type} : Ret (α × Stack) → Option Nat
  | .ret r _ => some r.2.length
  | _ => none

/-- The third call of `next` on a pending promise returns the handler, with one value too many on the
    stack. -/
theorem third_next_fails : ¬ ∀ depth cs s p f g, 9 ≤ depth → steps depth fresh cs = .ok s → p < s.count →
    NextReturns depth p f g s := by
  intro hall
  let cs : List Step := [.plain, .next 0 none none, .next 0 none none]
  have hend : (steps 9 fresh cs).map (fun s => (s.count,
      ((OnStack.thennext 9).run [.ofFn none, .ofFn none, promise 0] s).height)) = .ok (3, some 5) := by
    decide +kernel
  obtain ⟨s, hrun, hend⟩ := map_eq_ok.1 hend
  obtain ⟨hcount, hheight⟩ := Prod.mk.inj hend
  obtain ⟨s', hret, -⟩ := hall 9 cs s 0 none none (Nat.le_refl 9) hrun (by rw [hcount]; decide)
  rw [hret] at hheight
  cases hheight

end Yaos.Lua
