import Mathlib.Data.List.Forall2
import Yaos.Lua.Promise.Proofs

set_option autoImplicit false

/-! # The handlers of a promise

Handlers that `next` puts on a pending promise are kept as none, as one and as a table, and each form is
run by a branch of its own. The branch that adds to the table leaves a value on the stack, so that the
third and every further `next` on a pending promise returns the handler in place of the new promise. -/

namespace Yaos.Lua

/-- The record of a promise that is made. -/
def freshPromise : Promise := { state := .pending, value := .nil, deferreds := .zero, refs := none }

/-- The state and value that a handler gives to its promise. -/
def Deferred.outcome (d : Deferred) (state : PState) (v : Value) : PState × Value :=
  match d.selected state with
  | none => (state, v)
  | some f =>
      match f v with
      | .ok r => (.resolved, r)
      | .error _ => (.pending, .nil)

/-- The record of the promise of a handler that has run. -/
def Deferred.served (d : Deferred) (state : PState) (v : Value) : Promise :=
  { freshPromise with state := (d.outcome state v).1, value := (d.outcome state v).2 }

/-- The call that a handler is owed for this outcome. -/
def Deferred.call (d : Deferred) (state : PState) (v : Value) : List HandlerCall :=
  if d.selected state = none then [] else [{ promise := d.promise, state := state, value := v }]

/-- The handler is nil or returns a value that is no promise. -/
def Deferred.Returns (d : Deferred) (state : PState) (v : Value) : Prop :=
  ∀ f, d.selected state = some f → ∃ r, f v = .ok r ∧ r.isPromise = false

/-- The handlers in `ds` have run. -/
structure Served (state : PState) (v : Value) (ds : List Deferred) (s s' : State) : Prop where
  count : s'.count = s.count
  calls : s'.calls = s.calls ++ ds.flatMap (Deferred.call · state v)
  served : ∀ d ∈ ds, s'.promises d.promise = d.served state v
  others : ∀ q, q ∉ ds.map Deferred.promise → s'.promises q = s.promises q

section Handle

variable {s : State} {p n : Nat} {state : PState} {v : Value} {d : Deferred}

/-- A promise without handlers is settled. -/
theorem resolve_fresh {q : Nat} (hq : s.promises q = freshPromise) (hv : v.isPromise = false) :
    resolve (n + 2) (.promise q) v s = .ret () (s.settle q .resolved v) := by
  have hzero : ((s.settle q .resolved v).promises q).deferreds = .zero := by
    simp [State.settle, State.setPromise, hq, freshPromise]
  rw [resolve, hv, if_neg (by simp), finale, hzero]

theorem reject_fresh {q : Nat} (hq : s.promises q = freshPromise) :
    reject (n + 2) (.promise q) v s = .ret () (s.settle q .rejected v) := by
  have hzero : ((s.settle q .rejected v).promises q).deferreds = .zero := by
    simp [State.settle, State.setPromise, hq, freshPromise]
  rw [reject, finale, hzero]

theorem settle_promises {q : Nat} (hq : s.promises q = freshPromise) :
    (s.settle q state v).promises =
      Function.update s.promises q { freshPromise with state := state, value := v } := by
  rw [State.settle, State.setPromise, hq]

theorem callHandler_same (s : State) (q : Nat) (d : Deferred) :
    (s.callHandler q d).2.promises = s.promises ∧ (s.callHandler q d).2.count = s.count ∧
      (s.callHandler q d).2.calls =
        s.calls ++ [{ promise := d.promise, state := (s.promises q).state, value := (s.promises q).value }] := by
  have hsame := ref_same s (.handler s.calls.length) (.promise q)
  refine ⟨hsame.promises, hsame.count, ?_⟩
  rw [State.callHandler]
  dsimp only
  rw [hsame.calls]

/-- One handler of a settled promise is run. -/
theorem handle_settled (hp : (s.promises p).state = state) (hv : (s.promises p).value = v)
    (hstate : state = .resolved ∧ v.isPromise = false ∨ state = .rejected)
    (hfresh : s.promises d.promise = freshPromise) (hd : d.Returns state v) :
    ∃ s', handle (n + 4) p (some d) s = .ret 0 s' ∧ Served state v [d] s s' := by
  have hne : state ≠ .resolving ∧ state ≠ .pending := by
    rcases hstate with ⟨rfl, -⟩ | rfl <;> simp
  have hserved : ∀ s₁ : State, s₁.count = s.count → s₁.calls = s.calls ++ d.call state v →
      s₁.promises = Function.update s.promises d.promise (d.served state v) → Served state v [d] s s₁ := by
    intro s₁ hcount hcalls hpromises
    refine ⟨hcount, by simpa using hcalls, fun d' hd' => ?_, fun q hq => ?_⟩
    · rw [List.mem_singleton.1 hd', hpromises, Function.update_self]
    · rw [hpromises]
      exact Function.update_of_ne (by simpa using hq) ..
  rw [handle, State.follow, if_neg (hp ▸ hne.1)]
  dsimp only
  rw [if_neg (hp ▸ hne.2), handleResolved]
  dsimp only
  rw [hp, hv]
  cases hsel : d.selected state with
  | none =>
      have houtcome : d.served state v = { freshPromise with state := state, value := v } := by
        simp [Deferred.served, Deferred.outcome, hsel]
      have hcalls : s.calls = s.calls ++ d.call state v := by simp [Deferred.call, hsel]
      dsimp only
      rcases hstate with ⟨rfl, hprom⟩ | rfl
      · rw [if_pos rfl, resolve_fresh hfresh hprom]
        refine ⟨_, rfl, hserved _ rfl hcalls ?_⟩
        rw [settle_promises hfresh, houtcome]
      · rw [if_neg (by simp), reject_fresh hfresh]
        refine ⟨_, rfl, hserved _ rfl hcalls ?_⟩
        rw [settle_promises hfresh, houtcome]
  | some f =>
      obtain ⟨r, hr, hprom⟩ := hd f hsel
      obtain ⟨hpromises, hcount, hcalls⟩ := callHandler_same s p d
      have houtcome : d.served state v = { freshPromise with state := .resolved, value := r } := by
        simp [Deferred.served, Deferred.outcome, hsel, hr]
      have hfresh' : (s.callHandler p d).2.promises d.promise = freshPromise := hpromises ▸ hfresh
      dsimp only
      rw [hr]
      dsimp only
      rw [resolve_fresh hfresh' hprom]
      refine ⟨_, rfl, hserved _ hcount ?_ ?_⟩
      · show (s.callHandler p d).2.calls = _
        rw [hcalls, hp, hv]
        simp [Deferred.call, hsel]
      · rw [settle_promises hfresh', hpromises, houtcome]

/-- The loop of `finale` runs the handlers in their order. -/
theorem finaleLoop_served {ds : List Deferred} (hp : (s.promises p).state = state)
    (hv : (s.promises p).value = v)
    (hstate : state = .resolved ∧ v.isPromise = false ∨ state = .rejected)
    (hfresh : ∀ d ∈ ds, s.promises d.promise = freshPromise ∧ d.promise ≠ p)
    (hnodup : (ds.map Deferred.promise).Nodup) (hd : ∀ d ∈ ds, d.Returns state v) :
    ∃ s', finaleLoop (fun d s => handle (n + 4) p (some d) s) ds s = .ret () s' ∧
      Served state v ds s s' := by
  induction ds generalizing s with
  | nil => exact ⟨s, rfl, rfl, by simp, by simp, fun _ _ => rfl⟩
  | cons d ds ih =>
      obtain ⟨hnot, hnodup⟩ := List.nodup_cons.1 hnodup
      obtain ⟨hdfresh, hdp⟩ := hfresh d (by simp)
      obtain ⟨s₁, hrun, h₁⟩ := handle_settled hp hv hstate hdfresh (hd d (by simp)) (n := n)
      have hsame : s₁.promises p = s.promises p := h₁.others p (by simpa using Ne.symm hdp)
      have hfresh₁ : ∀ d' ∈ ds, s₁.promises d'.promise = freshPromise ∧ d'.promise ≠ p := by
        intro d' hd'
        have hne : d'.promise ≠ d.promise := fun heq => hnot (heq ▸ List.mem_map_of_mem hd')
        rw [h₁.others d'.promise (by simpa using hne)]
        exact hfresh d' (by simp [hd'])
      obtain ⟨s', hrun', h'⟩ := ih (hsame ▸ hp) (hsame ▸ hv) hfresh₁ hnodup
        fun d' hd' => hd d' (by simp [hd'])
      refine ⟨s', ?_, h'.count.trans h₁.count, ?_, fun d' hd' => ?_, fun q hq => ?_⟩
      · rw [finaleLoop, hrun]
        exact hrun'
      · rw [h'.calls, h₁.calls]
        simp
      · rcases List.mem_cons.1 hd' with rfl | hd'
        · rw [h'.others d'.promise hnot]
          exact h₁.served d' (by simp)
        · exact h'.served d' hd'
      · simp only [List.map_cons, List.mem_cons, not_or] at hq
        rw [h'.others q hq.2]
        exact h₁.others q (by simpa using hq.1)

end Handle

/-! ## Calls of `next` before the promise settles -/

/-- The handlers that calls of `next` make when `n` promises exist. -/
def derived : Nat → List (Option Fn × Option Fn) → List Deferred
  | _, [] => []
  | n, (f, g) :: hs => { onFulfilled := f, onRejected := g, promise := n } :: derived (n + 1) hs

theorem derived_promises (n : Nat) (hs : List (Option Fn × Option Fn)) :
    (derived n hs).map Deferred.promise = List.range' n hs.length := by
  induction hs generalizing n with
  | nil => rfl
  | cons h hs ih => rw [derived, List.map_cons, ih, List.length_cons, List.range'_succ]

theorem derived_append (n : Nat) (hs hs' : List (Option Fn × Option Fn)) :
    derived n (hs ++ hs') = derived n hs ++ derived (n + hs.length) hs' := by
  induction hs generalizing n with
  | nil => rfl
  | cons h hs ih =>
      have hmove : n + (hs.length + 1) = n + 1 + hs.length := by omega
      rw [List.cons_append, derived, ih, derived, List.cons_append, List.length_cons, hmove]

/-- One call of `next` after the other, with what they return. -/
def nexts (depth p : Nat) : List (Option Fn × Option Fn) → State → Ret (List Value)
  | [], s => .ret [] s
  | (f, g) :: hs, s =>
      (thennext depth p f g s).andThen fun v s =>
        (nexts depth p hs s).andThen fun vs s => .ret (v :: vs) s

/-- How the handlers `ds` are kept. -/
def shape : List Deferred → Deferreds
  | [] => .zero
  | [d] => .one (some d)
  | ds => .table ds

/-- `p` is pending and has the handlers `ds`. -/
structure Waiting (s : State) (p : Nat) (ds : List Deferred) : Prop where
  exists_p : p < s.count
  pending : (s.promises p).state = .pending
  deferreds : (s.promises p).deferreds = shape ds
  fresh : ∀ d ∈ ds, s.promises d.promise = freshPromise ∧ d.promise ≠ p ∧ d.promise < s.count
  nodup : (ds.map Deferred.promise).Nodup

section Waiting

variable {s : State} {p n : Nat} {ds : List Deferred} {f g : Option Fn}

theorem Waiting.register (h : Waiting s p ds) (d : Deferred) :
    s.register p (some d) = (if ds.length < 2 then 0 else 1, s.setDeferreds p (shape (ds ++ [d]))) := by
  have hshape := h.deferreds
  rw [State.register]
  obtain _ | ⟨x, _ | ⟨y, ds⟩⟩ := ds
  · rw [hshape]
    rfl
  · rw [hshape]
    rfl
  · rw [hshape]
    simp [shape]

theorem thennext_eq (depth p : Nat) (f g : Option Fn) (s : State) :
    thennext depth p f g s =
      (handle depth p (some { onFulfilled := f, onRejected := g, promise := s.count })
        s.newPromise.2).andThen fun extra s' =>
          .ret (((List.replicate extra (Value.promise p) ++
            [Value.other 1, Value.promise p, Value.other 1, Value.promise s.count]).drop 3).headD .nil) s' :=
  rfl

theorem newPromise_old {q : Nat} (hq : q < s.count) : s.newPromise.2.promises q = s.promises q :=
  Function.update_of_ne (Nat.ne_of_lt hq) ..

theorem newPromise_new (s : State) : s.newPromise.2.promises s.count = freshPromise :=
  Function.update_self ..

theorem Waiting.newPromise (h : Waiting s p ds) : Waiting s.newPromise.2 p ds := by
  refine ⟨Nat.lt_succ_of_lt h.exists_p, ?_, ?_, fun d hd => ?_, h.nodup⟩
  · rw [newPromise_old h.exists_p]
    exact h.pending
  · rw [newPromise_old h.exists_p]
    exact h.deferreds
  · obtain ⟨hd₁, hd₂, hd₃⟩ := h.fresh d hd
    exact ⟨(newPromise_old hd₃).trans hd₁, hd₂, Nat.lt_succ_of_lt hd₃⟩

/-- A new handler is put behind the others. -/
theorem Waiting.add {d : Deferred} (h : Waiting s p ds) (hd : s.promises d.promise = freshPromise)
    (hdp : d.promise ≠ p) (hlt : d.promise < s.count) (hnot : d.promise ∉ ds.map Deferred.promise) :
    Waiting (s.setDeferreds p (shape (ds ++ [d]))) p (ds ++ [d]) := by
  have hself : (s.setDeferreds p (shape (ds ++ [d]))).promises p =
      { s.promises p with deferreds := shape (ds ++ [d]) } := Function.update_self ..
  have hother : ∀ q, q ≠ p → (s.setDeferreds p (shape (ds ++ [d]))).promises q = s.promises q :=
    fun q hq => Function.update_of_ne hq ..
  refine ⟨h.exists_p, ?_, by rw [hself], fun x hx => ?_, ?_⟩
  · rw [hself]
    exact h.pending
  · rcases List.mem_append.1 hx with hx | hx
    · obtain ⟨hx₁, hx₂, hx₃⟩ := h.fresh x hx
      exact ⟨(hother _ hx₂).trans hx₁, hx₂, hx₃⟩
    · rw [List.mem_singleton.1 hx]
      exact ⟨(hother _ hdp).trans hd, hdp, hlt⟩
  · rw [List.map_append, List.nodup_append]
    refine ⟨h.nodup, by simp, fun a ha b hb heq => hnot ?_⟩
    rw [← List.mem_singleton.1 hb, ← heq]
    exact ha

theorem thennext_waiting (h : Waiting s p ds) :
    ∃ s', thennext (n + 1) p f g s =
        .ret (if ds.length < 2 then .promise s.count else .other 1) s' ∧
      Waiting s' p (ds ++ [{ onFulfilled := f, onRejected := g, promise := s.count }]) ∧
      s'.count = s.count + 1 ∧ s'.calls = s.calls := by
  have hwait := h.newPromise
  have hfollow : s.newPromise.2.follow (s.newPromise.2.count + 1) p = some p := by
    rw [State.follow, if_neg (by rw [hwait.pending]; simp)]
  have hnot : s.count ∉ ds.map Deferred.promise := fun hmem => by
    obtain ⟨d, hd, heq⟩ := List.mem_map.1 hmem
    exact absurd heq (Nat.ne_of_lt (h.fresh d hd).2.2)
  rw [thennext_eq, handle, hfollow]
  dsimp only
  rw [if_pos hwait.pending, hwait.register]
  refine ⟨_, ?_, hwait.add (newPromise_new s) (Nat.ne_of_gt h.exists_p) (Nat.lt_succ_self _) hnot, rfl, rfl⟩
  rw [Ret.andThen]
  split
  · rfl
  · rfl

theorem nexts_waiting (hs : List (Option Fn × Option Fn)) (h : Waiting s p ds) :
    ∃ vs s', nexts (n + 1) p hs s = .ret vs s' ∧ Waiting s' p (ds ++ derived s.count hs) ∧
      s'.count = s.count + hs.length ∧ s'.calls = s.calls ∧ vs.length = hs.length ∧
      (∀ k, k < hs.length → ds.length + k < 2 → vs[k]? = some (.promise (s.count + k))) ∧
      (∀ k, k < hs.length → 2 ≤ ds.length + k → vs[k]? = some (.other 1)) := by
  induction hs generalizing s ds with
  | nil => exact ⟨[], s, rfl, by simpa [derived] using h, rfl, rfl, rfl, by simp, by simp⟩
  | cons x hs ih =>
      obtain ⟨f, g⟩ := x
      obtain ⟨s₁, hrun₁, h₁, hcount₁, hcalls₁⟩ := thennext_waiting h (n := n) (f := f) (g := g)
      obtain ⟨vs, s', hrun, h', hcount, hcalls, hlength, hfew, hmany⟩ := ih h₁
      refine ⟨(if ds.length < 2 then .promise s.count else .other 1) :: vs, s', ?_, ?_, ?_,
        hcalls.trans hcalls₁, ?_, fun k hk hlt => ?_, fun k hk hle => ?_⟩
      · rw [nexts, hrun₁, Ret.andThen, hrun, Ret.andThen]
      · rw [hcount₁] at h'
        simpa [derived] using h'
      · rw [hcount, hcount₁, List.length_cons]
        omega
      · rw [List.length_cons, List.length_cons, hlength]
      · cases k with
        | zero => simp [show ds.length < 2 from hlt]
        | succ k =>
            rw [List.getElem?_cons_succ, hfew k (by simpa using hk) (by simpa using (by omega)), hcount₁]
            congr 2
            omega
      · cases k with
        | zero => simp [show ¬ ds.length < 2 by omega]
        | succ k =>
            rw [List.getElem?_cons_succ]
            exact hmany k (by simpa using hk) (by simpa using (by omega))

end Waiting

/-! ## The promise settles -/

/-- `resolve` or `reject`. -/
def settleAs (depth p : Nat) (fulfilled : Bool) (v : Value) (s : State) : Ret Unit :=
  if fulfilled then resolve depth (.promise p) v s else reject depth (.promise p) v s

/-- `RESOLVED` or `REJECTED`. -/
def settledState (fulfilled : Bool) : PState := if fulfilled then .resolved else .rejected

section Settled

variable {s : State} {p n : Nat} {ds : List Deferred} {state : PState} {v : Value}

/-- `p` has settled. -/
structure Settled (s : State) (p : Nat) (state : PState) (v : Value) : Prop where
  exists_p : p < s.count
  state_p : (s.promises p).state = state
  value_p : (s.promises p).value = v
  kind : state = .resolved ∧ v.isPromise = false ∨ state = .rejected

/-- The handlers `ds` have run, and `p` has settled. -/
theorem finale_waiting (h : Waiting s p ds)
    (hkind : state = .resolved ∧ v.isPromise = false ∨ state = .rejected)
    (hd : ∀ d ∈ ds, d.Returns state v) :
    ∃ s', finale (n + 5) p (s.settle p state v) = .ret () s' ∧ Settled s' p state v ∧
      s'.count = s.count ∧ s'.calls = s.calls ++ ds.flatMap (Deferred.call · state v) ∧
      ∀ d ∈ ds, s'.promises d.promise = d.served state v := by
  have hself : (s.settle p state v).promises p = { s.promises p with state := state, value := v } :=
    Function.update_self ..
  have hother : ∀ q, q ≠ p → (s.settle p state v).promises q = s.promises q := fun q hq =>
    Function.update_of_ne hq ..
  have hstate : ((s.settle p state v).promises p).state = state := by rw [hself]
  have hvalue : ((s.settle p state v).promises p).value = v := by rw [hself]
  have hfresh : ∀ d ∈ ds, (s.settle p state v).promises d.promise = freshPromise ∧ d.promise ≠ p := by
    intro d hd
    obtain ⟨hd₁, hd₂, -⟩ := h.fresh d hd
    exact ⟨(hother _ hd₂).trans hd₁, hd₂⟩
  have hdeferreds : ((s.settle p state v).promises p).deferreds = shape ds := by
    rw [hself]
    exact h.deferreds
  -- What the branches for one handler and for a table have in common.
  obtain ⟨s₁, hloop, hserved⟩ := finaleLoop_served hstate hvalue hkind hfresh h.nodup hd (n := n)
  have hsame : s₁.promises p = (s.settle p state v).promises p := by
    refine hserved.others p fun hmem => ?_
    obtain ⟨d, hd, heq⟩ := List.mem_map.1 hmem
    exact (hfresh d hd).2 heq
  have hsettled : Settled s₁ p state v :=
    ⟨hserved.count ▸ h.exists_p, hsame ▸ hstate, hsame ▸ hvalue, hkind⟩
  rw [finale, hdeferreds]
  obtain _ | ⟨d, _ | ⟨d', ds⟩⟩ := ds
  · obtain ⟨-, rfl⟩ := Ret.ret.inj hloop
    exact ⟨_, rfl, hsettled, rfl, by simp [State.settle, State.setPromise], by simp⟩
  · obtain ⟨hdfresh, hdp⟩ := hfresh d (by simp)
    obtain ⟨s₂, hrun, hserved₂⟩ := handle_settled hstate hvalue hkind hdfresh (hd d (by simp)) (n := n)
    have hsame₂ : s₂.promises p = (s.settle p state v).promises p :=
      hserved₂.others p (by simpa using Ne.symm hdp)
    have hset : (s₂.setDeferreds p (.one none)).promises p =
        { s₂.promises p with deferreds := .one none } := Function.update_self ..
    have hkeep : (s₂.setDeferreds p (.one none)).promises d.promise = s₂.promises d.promise :=
      Function.update_of_ne hdp ..
    refine ⟨s₂.setDeferreds p (.one none), ?_, ⟨hserved₂.count ▸ h.exists_p, ?_, ?_, hkind⟩,
      hserved₂.count, hserved₂.calls, fun x hx => ?_⟩
    · show (handle (n + 4) p (some d) (s.settle p state v)).andThen _ = _
      rw [hrun]
      rfl
    · rw [hset, hsame₂, hstate]
    · rw [hset, hsame₂, hvalue]
    · rw [List.mem_singleton.1 hx, hkeep]
      exact hserved₂.served d (by simp)
  · exact ⟨s₁, hloop, hsettled, hserved.count, hserved.calls, hserved.served⟩

theorem settleAs_waiting {fulfilled : Bool} (h : Waiting s p ds) (hv : v.isPromise = false)
    (hd : ∀ d ∈ ds, d.Returns (settledState fulfilled) v) :
    ∃ s', settleAs (n + 6) p fulfilled v s = .ret () s' ∧ Settled s' p (settledState fulfilled) v ∧
      s'.count = s.count ∧
      s'.calls = s.calls ++ ds.flatMap (Deferred.call · (settledState fulfilled) v) ∧
      ∀ d ∈ ds, s'.promises d.promise = d.served (settledState fulfilled) v := by
  cases fulfilled with
  | true =>
      rw [settleAs, if_pos rfl, resolve, hv, if_neg (by simp)]
      exact finale_waiting h (.inl ⟨rfl, hv⟩) hd
  | false =>
      rw [settleAs, if_neg (by simp), reject]
      exact finale_waiting h (.inr rfl) hd

/-! ## Calls of `next` after that -/

theorem thennext_settled {f g : Option Fn} (h : Settled s p state v)
    (hd : ({ onFulfilled := f, onRejected := g, promise := s.count } : Deferred).Returns state v) :
    ∃ s', thennext (n + 4) p f g s = .ret (.promise s.count) s' ∧
      s'.count = s.count + 1 ∧
      s'.calls = s.calls ++ ({ onFulfilled := f, onRejected := g, promise := s.count } : Deferred).call state v ∧
      s'.promises s.count =
        ({ onFulfilled := f, onRejected := g, promise := s.count } : Deferred).served state v ∧
      ∀ q, q < s.count → s'.promises q = s.promises q := by
  have hold := newPromise_old h.exists_p
  obtain ⟨s', hrun, hserved⟩ := handle_settled (s := s.newPromise.2) (p := p) (n := n)
    (d := { onFulfilled := f, onRejected := g, promise := s.count }) (by rw [hold, h.state_p])
    (by rw [hold, h.value_p]) h.kind (newPromise_new s) hd
  refine ⟨s', ?_, hserved.count, ?_, hserved.served _ List.mem_cons_self, fun q hq => ?_⟩
  · rw [thennext_eq, hrun]
    rfl
  · rw [hserved.calls]
    simp [State.newPromise, State.setPromise]
  · rw [hserved.others q (by simpa using Nat.ne_of_lt hq), newPromise_old hq]

theorem nexts_settled (hs : List (Option Fn × Option Fn)) (h : Settled s p state v)
    (hd : ∀ d ∈ derived s.count hs, d.Returns state v) :
    ∃ s', nexts (n + 4) p hs s = .ret ((derived s.count hs).map fun d => .promise d.promise) s' ∧
      s'.calls = s.calls ++ (derived s.count hs).flatMap (Deferred.call · state v) ∧
      (∀ d ∈ derived s.count hs, s'.promises d.promise = d.served state v) ∧
      ∀ q, q < s.count → s'.promises q = s.promises q := by
  induction hs generalizing s with
  | nil => exact ⟨s, rfl, by simp [derived], by simp [derived], fun _ _ => rfl⟩
  | cons x hs ih =>
      obtain ⟨f, g⟩ := x
      obtain ⟨s₁, hrun₁, hcount₁, hcalls₁, hserved₁, hold₁⟩ :=
        thennext_settled h (hd _ (by simp [derived])) (n := n) (f := f) (g := g)
      have h₁ : Settled s₁ p state v :=
        ⟨hcount₁ ▸ Nat.lt_succ_of_lt h.exists_p, hold₁ p h.exists_p ▸ h.state_p,
          hold₁ p h.exists_p ▸ h.value_p, h.kind⟩
      obtain ⟨s', hrun, hcalls, hserved, hold⟩ := ih h₁ fun d hd' => hd d (by
        rw [hcount₁] at hd'
        simp [derived, hd'])
      rw [hcount₁] at hrun hcalls hserved hold
      refine ⟨s', ?_, ?_, fun d hd' => ?_, fun q hq => ?_⟩
      · rw [nexts, hrun₁, Ret.andThen, hrun, Ret.andThen]
        rfl
      · rw [hcalls, hcalls₁]
        simp [derived]
      · rw [derived] at hd'
        rcases List.mem_cons.1 hd' with rfl | hd'
        · rw [hold s.count (Nat.lt_succ_self _), hserved₁]
        · exact hserved d hd'
      · rw [hold q (Nat.lt_succ_of_lt hq), hold₁ q hq]

end Settled

/-! ## All calls of `next` -/

/-- The handlers `before` are put on `p` before it settles, and `after` when it has settled. -/
def serveAll (depth p : Nat) (before after : List (Option Fn × Option Fn)) (fulfilled : Bool) (v : Value)
    (s : State) : Ret (List Value) :=
  (nexts depth p before s).andThen fun vs s =>
    (settleAs depth p fulfilled v s).andThen fun _ s =>
      (nexts depth p after s).andThen fun ws s => .ret (vs ++ ws) s

/-- What `next` has returned for the handler `d` is a promise with the state and value that `d` gives it. -/
def Ends (s : State) (state : PState) (v w : Value) (d : Deferred) : Prop :=
  ∃ q, w = .promise q ∧ (s.promises q).state = (d.outcome state v).1 ∧
    (s.promises q).value = (d.outcome state v).2

/-- The handlers were called in their order, and each call of `next` has returned a promise that ends as
    its handler says. -/
def AllServed (depth p : Nat) (before after : List (Option Fn × Option Fn)) (fulfilled : Bool)
    (v : Value) (s : State) : Prop :=
  ∃ ws s', serveAll depth p before after fulfilled v s = .ret ws s' ∧
    s'.calls = s.calls ++
      (derived s.count (before ++ after)).flatMap (Deferred.call · (settledState fulfilled) v) ∧
    List.Forall₂ (Ends s' (settledState fulfilled) v) ws (derived s.count (before ++ after))

theorem Ends.mem_left {s : State} {state : PState} {v w : Value} {ws : List Value} {ds : List Deferred}
    (h : List.Forall₂ (Ends s state v) ws ds) (hw : w ∈ ws) : ∃ d ∈ ds, Ends s state v w d := by
  induction h with
  | nil => cases hw
  | cons hd _ ih =>
      rcases List.mem_cons.1 hw with rfl | hw
      · exact ⟨_, List.mem_cons_self, hd⟩
      · obtain ⟨d, hmem, hd⟩ := ih hw
        exact ⟨d, List.mem_cons_of_mem _ hmem, hd⟩

section All

variable {s : State} {p n : Nat} {before after : List (Option Fn × Option Fn)} {fulfilled : Bool}
  {v : Value}

/-- The handlers are run and their promises settle, whatever the calls of `next` have returned. -/
theorem serveAll_eq (hp : p < s.count) (hpending : (s.promises p).state = .pending)
    (hzero : (s.promises p).deferreds = .zero) (hv : v.isPromise = false)
    (hret : ∀ d ∈ derived s.count (before ++ after), d.Returns (settledState fulfilled) v) :
    ∃ vs s', serveAll (n + 6) p before after fulfilled v s = .ret (vs ++
        (derived (s.count + before.length) after).map fun d => .promise d.promise) s' ∧
      s'.calls = s.calls ++
        (derived s.count (before ++ after)).flatMap (Deferred.call · (settledState fulfilled) v) ∧
      (∀ d ∈ derived s.count (before ++ after),
        s'.promises d.promise = d.served (settledState fulfilled) v) ∧
      vs.length = before.length ∧
      (∀ k, k < before.length → k < 2 → vs[k]? = some (.promise (s.count + k))) ∧
      ∀ k, k < before.length → 2 ≤ k → vs[k]? = some (.other 1) := by
  have hwait : Waiting s p [] := ⟨hp, hpending, hzero, by simp, by simp⟩
  obtain ⟨vs, s₁, hrun₁, h₁, hcount₁, hcalls₁, hlength, hfew, hmany⟩ :=
    nexts_waiting before hwait (n := n + 5)
  simp only [List.length_nil, Nat.zero_add, List.nil_append] at h₁ hfew hmany
  rw [derived_append] at hret ⊢
  obtain ⟨s₂, hrun₂, h₂, hcount₂, hcalls₂, hserved₂⟩ :=
    settleAs_waiting h₁ hv (fun d hd => hret d (by simp [hd])) (n := n)
  have hcount : s₂.count = s.count + before.length := hcount₂.trans hcount₁
  obtain ⟨s₃, hrun₃, hcalls₃, hserved₃, hold₃⟩ := nexts_settled after h₂ (n := n + 2)
    fun d hd => hret d (by rw [hcount] at hd; simp [hd])
  rw [hcount] at hrun₃ hcalls₃ hserved₃ hold₃
  refine ⟨vs, s₃, ?_, ?_, fun d hd => ?_, hlength, hfew, hmany⟩
  · rw [serveAll, hrun₁, Ret.andThen, hrun₂, Ret.andThen, hrun₃, Ret.andThen]
  · rw [hcalls₃, hcalls₂, hcalls₁, List.flatMap_append, List.append_assoc]
  · rcases List.mem_append.1 hd with hd | hd
    · rw [hold₃ d.promise, hserved₂ d hd]
      exact hcount₁ ▸ (h₁.fresh d hd).2.2
    · exact hserved₃ d hd

theorem derived_get {k : Nat} (hk : k < before.length) :
    ((derived s.count before).map fun d => Value.promise d.promise)[k]? = some (.promise (s.count + k)) := by
  have hget := congrArg (fun ps => ps[k]?) (derived_promises s.count before)
  have hlt : k < (List.range' s.count before.length).length := by simpa using hk
  simp only [List.getElem?_map, List.getElem?_eq_getElem hlt, List.getElem_range', Nat.one_mul] at hget
  obtain ⟨d, hd, hpromise⟩ := Option.map_eq_some_iff.1 hget
  rw [List.getElem?_map, hd, Option.map_some, hpromise]

theorem Ends.of_served {state : PState} {d : Deferred} (h : s.promises d.promise = d.served state v) :
    Ends s state v (.promise d.promise) d := ⟨d.promise, rfl, by rw [h]; rfl, by rw [h]; rfl⟩

end All

/-- The handlers of a promise are served if and only if at most two were put on it before it settled. -/
theorem handlers_served_iff {s : State} {p depth : Nat} {before after : List (Option Fn × Option Fn)}
    {fulfilled : Bool} {v : Value} (hdepth : 6 ≤ depth) (hp : p < s.count)
    (hpending : (s.promises p).state = .pending) (hzero : (s.promises p).deferreds = .zero)
    (hv : v.isPromise = false)
    (hret : ∀ d ∈ derived s.count (before ++ after), d.Returns (settledState fulfilled) v) :
    AllServed depth p before after fulfilled v s ↔ before.length ≤ 2 := by
  obtain ⟨n, rfl⟩ := Nat.exists_eq_add_of_le' hdepth
  obtain ⟨vs, s', hrun, hcalls, hserved, hlength, hfew, hmany⟩ := serveAll_eq hp hpending hzero hv hret (n := n)
  constructor
  · rintro ⟨ws, s'', hall, -, hends⟩
    by_contra hlt
    -- The third call has returned the handler.
    have hthird : (Value.other 1) ∈ vs := List.mem_of_getElem? (hmany 2 (by omega) (by omega))
    obtain ⟨hws, -⟩ := Ret.ret.inj (hrun.symm.trans hall)
    have hmem : (Value.other 1) ∈ ws := hws ▸ List.mem_append_left _ hthird
    obtain ⟨d, -, q, hq, -⟩ := Ends.mem_left hends hmem
    cases hq
  · intro hle
    have hvs : vs = (derived s.count before).map fun d => Value.promise d.promise := by
      refine List.ext_getElem? fun k => ?_
      by_cases hk : k < before.length
      · rw [hfew k hk (by omega), derived_get hk]
      · have hlen := congrArg List.length (derived_promises s.count before)
        simp only [List.length_map, List.length_range'] at hlen
        rw [List.getElem?_eq_none (by omega), List.getElem?_eq_none (by simpa [hlen] using hk)]
    refine ⟨_, s', hrun, hcalls, ?_⟩
    rw [hvs, ← List.map_append, ← derived_append, List.forall₂_map_left_iff, List.forall₂_same]
    exact fun d hd => .of_served (hserved d hd)

/-- A handler before the promise settles and none after that. -/
theorem handlers_served_two :
    AllServed 6 0 [(some .ok, none)] [(none, none)] true (.num 7) fresh.newPromise.2 :=
  (handlers_served_iff (Nat.le_refl 6) (by decide) rfl rfl rfl (by
    intro d hd f hf
    simp only [derived, List.cons_append, List.nil_append, List.mem_cons, List.not_mem_nil, or_false] at hd
    rcases hd with rfl | rfl
    · obtain rfl := Option.some.inj hf
      exact ⟨_, rfl, rfl⟩
    · cases hf)).2 (by decide)

/-- The third call of `next` on a pending promise has returned the handler. -/
theorem third_not_served :
    step 6 fresh .plain = .ok fresh.newPromise.2 ∧
      ¬ AllServed 6 0 [(none, none), (none, none), (none, none)] [] true (.num 7) fresh.newPromise.2 := by
  refine ⟨rfl, ?_⟩
  rintro ⟨ws, s', hall, -, hends⟩
  have hwait : Waiting fresh.newPromise.2 0 [] := ⟨by decide, rfl, rfl, by simp, by simp⟩
  obtain ⟨vs, s₁, hrun, -, -, -, -, -, hmany⟩ :=
    nexts_waiting [(none, none), (none, none), (none, none)] hwait (n := 5)
  have hthird : Value.other 1 ∈ vs := List.mem_of_getElem? (hmany 2 (by simp) (by simp))
  rw [serveAll, hrun, Ret.andThen] at hall
  cases hsettle : settleAs 6 0 true (.num 7) s₁ with
  | ret u s₂ =>
      rw [hsettle] at hall
      obtain ⟨hws, -⟩ := Ret.ret.inj hall
      have hmem : Value.other 1 ∈ ws := hws ▸ List.mem_append_left _ hthird
      obtain ⟨d, -, q, hq, -⟩ := Ends.mem_left hends hmem
      cases hq
  | raise e s₂ =>
      rw [hsettle] at hall
      cases hall
  | fault f =>
      rw [hsettle] at hall
      cases hall

end Yaos.Lua
