import Yaos.Lua.Promise.OnStack
import Yaos.Lua.Promise.Valued

set_option autoImplicit false

/-! # What the functions leave on the stack

On the stack the functions do to promises and registry what they do in `Yaos.Lua`, and they leave the
stack as they have found it. Only `handle` may leave one slot more: as many as its result there says. -/

namespace Yaos.Lua.OnStack

/-- A promise on the stack. -/
def promise (p : Nat) : Slot := .value (.promise p)

/-! ## Running the code -/

section Run

variable {α β : Type} {st : Stack} {s : State}

@[simp] theorem andThen_ret (a : α) (k : α → State → Ret β) : (Ret.ret a s).andThen k = k a s := rfl

@[simp] theorem andThen_raise (e : Value) (k : α → State → Ret β) :
    (Ret.raise e s : Ret α).andThen k = .raise e s := rfl

@[simp] theorem andThen_fault (f : Fault) (k : α → State → Ret β) :
    (Ret.fault f : Ret α).andThen k = .fault f := rfl

theorem andThen_assoc {γ : Type} (r : Ret α) (k : α → State → Ret β) (k' : β → State → Ret γ) :
    (r.andThen k).andThen k' = r.andThen fun a s => (k a s).andThen k' := by
  cases r <;> rfl

theorem andThen_congr {r : Ret α} {P : State → Prop} {k k' : α → State → Ret β} (h : r.Holds P)
    (hk : ∀ a s, P s → k a s = k' a s) : r.andThen k = r.andThen k' := by
  cases r with
  | ret a s => exact hk a s h
  | raise e s => rfl
  | fault f => rfl

@[simp] theorem run_bind (m : C α) (k : α → C β) :
    (m >>= k).run st s = (m.run st s).andThen fun r s => (k r.1).run r.2 s := rfl

@[simp] theorem run_pure (a : α) : (pure a : C α).run st s = .ret (a, st) s := rfl

@[simp] theorem run_gettop : gettop.run st s = .ret (st.length, st) s := rfl

@[simp] theorem run_pop (n : Nat) : (pop n).run st s = .ret ((), st.drop n) s := rfl

@[simp] theorem run_push (x : Slot) : (push x).run st s = .ret ((), x :: st) s := rfl

@[simp] theorem run_pushvalue (i : Index) : (pushvalue i).run st s = .ret ((), i.get st :: st) s := rfl

@[simp] theorem run_tointeger (v : Value) :
    (tointeger (.top 1)).run (.value v :: st) s = .ret (v.toInteger, .value v :: st) s := rfl

@[simp] theorem run_tostate (x : PState) :
    (tostate (.top 1)).run (.state x :: st) s = .ret (x, .state x :: st) s := rfl

@[simp] theorem get_top (k : Nat) : Index.get st (.top k) = st.getD (k - 1) .nil := rfl

@[simp] theorem get_base (i : Nat) : Index.get st (.base i) = st.getD (st.length - i) .nil := rfl

/-- What lies at a place from the bottom, whatever is above it. -/
theorem get_base_at (above : Stack) (x : Slot) (st : Stack) :
    Index.get (above ++ x :: st) (.base (st.length + 1)) = x := by
  have hdepth : (above ++ x :: st).length - (st.length + 1) = above.length := by
    rw [List.length_append, List.length_cons]
    omega
  rw [get_base, hdepth]
  simp

/-- What is above is taken off. -/
theorem run_settop (above : Stack) {i : Nat} (hi : i = st.length) :
    (settop i).run (above ++ st) s = .ret ((), st) s := by
  subst hi
  simp [settop]

theorem run_getfield {i : Index} {k : Field} {p : Nat} (h : i.get st = promise p) :
    (getfield i k).run st s = .ret ((), field (s.promises p) p k :: st) s := by
  unfold getfield
  dsimp only
  rw [h]
  cases k <;> rfl

theorem run_setfield {i : Index} {k : Field} {p : Nat} (h : i.get st = promise p) :
    (setfield i k).run st s = .ret ((), st.drop 1) (setField s p k (st.headD .nil)) := by
  unfold setfield
  dsimp only
  rw [h]
  cases k <;> rfl

theorem run_rawset {i : Index} {k : Field} {p : Nat} {x : Slot}
    (h : i.get (x :: .name k :: st) = promise p) :
    (rawset i).run (x :: .name k :: st) s = .ret ((), st) (setField s p k x) := by
  unfold rawset
  dsimp only
  rw [h]
  rfl

/-- A handler is put into the table below it. -/
theorem run_rawseti (x : Slot) (ds : List Deferred) :
    (rawseti (.top 2)).run (x :: .handlers ds :: st) s =
      .ret ((), .handlers (ds ++ x.toHandler.toList) :: st) s := rfl

theorem run_rawseti_deferreds (x : Slot) (p : Nat) :
    (rawseti (.top 2)).run (x :: .deferreds p :: st) s =
      .ret ((), .deferreds p :: st)
        (s.setDeferreds p (.table ((s.promises p).deferreds.toList ++ x.toHandler.toList))) := rfl

theorem setField_settle (p : Nat) (x : PState) (v : Value) :
    setField (setField s p .state (.state x)) p .value (.value v) = s.settle p x v := by
  simp [setField, State.settle, State.setPromise, Slot.toValue, Function.update_idem]

@[simp] theorem toHandler_ofHandler (d : Option Deferred) : (Slot.ofHandler d).toHandler = d := by
  cases d <;> rfl

end Run

/-! ## The branches of `handle` -/

section Handle

variable {st : Stack} {s : State} {p q : Nat}

theorem run_follow (h : Valued s) (fuel : Nat) :
    (follow fuel (s.promises p).state).run (.state (s.promises p).state :: promise p :: st) s =
      match s.follow fuel p with
      | some q => .ret ((s.promises q).state, .state (s.promises q).state :: promise q :: st) s
      | none => .fault .hang := by
  induction fuel generalizing p with
  | zero => rfl
  | succ fuel ih =>
      rw [follow, State.follow]
      by_cases hstate : (s.promises p).state = .resolving
      · obtain ⟨q, hq⟩ := h p hstate
        rw [if_pos hstate, if_pos hstate, hq]
        have hreplace : (replace (.top 2)).run (.value (.promise q) :: promise p :: st) s =
            .ret ((), promise q :: st) s := rfl
        simp only [run_bind, run_pop, andThen_ret, List.drop_succ_cons, List.drop_zero]
        rw [run_getfield rfl, andThen_ret, field, hq, hreplace, andThen_ret, run_getfield rfl]
        exact ih
      · rw [if_neg hstate, if_neg hstate]
        rfl

/-- The branch for a pending promise leaves on the stack what `register` says. -/
theorem run_addDeferred (d : Option Deferred) :
    (addDeferred (st.length + 2)).run (promise q :: .ofHandler d :: promise p :: st) s =
      .ret ((), List.replicate (s.register q d).1 (promise q) ++ .ofHandler d :: promise p :: st)
        (s.register q d).2 := by
  rw [addDeferred, State.register, run_bind, run_getfield rfl]
  cases hds : (s.promises q).deferreds with
  | zero =>
      have hone : setField s q .deferredState (.value (.num 1)) = s.setDeferreds q (.one none) := by
        simp [setField, hds]
      have hboth : setField (s.setDeferreds q (.one none)) q .deferreds (.ofHandler d) =
          s.setDeferreds q (.one d) := by
        cases d <;> simp [setField, Slot.ofHandler, Slot.nil, Slot.toHandler, State.setDeferreds,
          State.setPromise, Function.update_idem]
      have htop : Index.get (promise q :: .ofHandler d :: promise p :: st) (.base (st.length + 2)) =
          .ofHandler d := by
        simp [Index.get, Index.depth]
      simp only [field, hds, run_bind, andThen_ret, run_tointeger, run_pop, Value.toInteger, List.drop_succ_cons,
        List.drop_zero, if_true, run_push]
      rw [run_setfield rfl]
      simp only [andThen_ret, List.headD_cons, hone, List.drop_succ_cons, List.drop_zero, run_pushvalue, htop]
      rw [run_setfield rfl]
      simp only [andThen_ret, List.headD_cons, hboth, List.drop_succ_cons, List.drop_zero]
      exact run_settop [promise q] rfl
  | one d' =>
      -- a handler waits already: the two are put into a table
      have htwo : setField s q .deferredState (.value (.num 2)) = s := rfl
      simp only [field, hds, run_bind, andThen_ret, run_tointeger, run_pop, Value.toInteger, List.drop_succ_cons,
        List.drop_zero, Nat.one_ne_zero, if_false, if_true, run_push]
      rw [run_setfield rfl]
      simp only [andThen_ret, List.headD_cons, htwo, List.drop_succ_cons, List.drop_zero]
      rw [run_getfield rfl]
      simp only [andThen_ret, field, hds, run_rawseti, List.nil_append, toHandler_ofHandler, run_pushvalue,
        get_top, List.getD_cons_succ, List.getD_cons_zero, Nat.add_one_sub_one]
      rw [run_setfield rfl]
      rfl
  | table ds =>
      -- the promise that `handle` has pushed is left
      simp only [field, hds, run_bind, andThen_ret, run_tointeger, run_pop, Value.toInteger, List.drop_succ_cons,
        List.drop_zero]
      rw [if_neg (by decide), if_neg (by decide), run_bind, run_getfield rfl]
      simp only [andThen_ret, field, hds, run_bind, run_pushvalue, get_top, List.getD_cons_succ,
        List.getD_cons_zero, Nat.add_one_sub_one, run_rawseti_deferreds, toHandler_ofHandler, Deferreds.toList]
      rfl

end Handle

/-! ## Refinement -/

/-- The promise that the loop of `handle` finds. -/
def chainEnd (s : State) (p : Nat) : Nat := (s.follow (s.count + 1) p).getD 0

/-- With so much of the C stack the functions do what they do in `Yaos.Lua`, and leave the stack as it
    was. -/
structure RefinesAt (n : Nat) : Prop where
  resolve : ∀ p v st s, Valued s → (resolve n).run (.value v :: promise p :: st) s =
    (Lua.resolve n (.promise p) v s).andThen fun _ s => .ret ((), .value v :: promise p :: st) s
  reject : ∀ w v st s, Valued s → (reject n).run (.value v :: .value w :: st) s =
    (Lua.reject n w v s).andThen fun _ s => .ret ((), .value v :: .value w :: st) s
  finale : ∀ p st s, Valued s → (s.promises p).state ≠ .pending → (finale n).run (promise p :: st) s =
    (Lua.finale n p s).andThen fun _ s => .ret ((), promise p :: st) s
  handle : ∀ p d st s, Valued s → (handle n).run (.ofHandler d :: promise p :: st) s =
    (Lua.handle n p d s).andThen fun extra s' =>
      .ret ((), List.replicate extra (promise (chainEnd s p)) ++ .ofHandler d :: promise p :: st) s'
  handleResolved : ∀ q d st s, Valued s → (handleResolved n).run (.ofHandler d :: promise q :: st) s =
    (Lua.handleResolved n q d s).andThen fun _ s => .ret ((), .ofHandler d :: promise q :: st) s
  errorHandle : ∀ call r e s, Valued s → (errorHandle n call r e s).andThen (fun _ s => .ret () s) =
    Lua.errorHandle n call r e s

theorem refinesAt_zero : RefinesAt 0 := by
  refine ⟨fun p v st s _ => ?_, fun w v st s _ => ?_, fun p st s _ _ => ?_, fun p d st s _ => ?_,
    fun q d st s _ => ?_, fun call r e s _ => ?_⟩
  · rw [Lua.resolve]
    rfl
  · rw [Lua.reject]
    rfl
  · rw [Lua.finale]
    rfl
  · rw [Lua.handle]
    rfl
  · rw [Lua.handleResolved]
    rfl
  · rw [Lua.errorHandle]
    rfl

section Step

variable {n : Nat} (h : RefinesAt n) {st : Stack} {s : State}
include h

theorem resolve_run (p : Nat) (v : Value) (hs : Valued s) :
    (resolve (n + 1)).run (.value v :: promise p :: st) s =
      (Lua.resolve (n + 1) (.promise p) v s).andThen fun _ s => .ret ((), .value v :: promise p :: st) s := by
  have hwhen : (when v.isPromise (do
      getfield (.top 1) .next
      getfield (.top 3) .next
      pop 2)).run (.value v :: promise p :: st) s = .ret ((), .value v :: promise p :: st) s := by
    cases v <;> rfl
  have hrawset : ∀ x k s, (rawset (.base (st.length + 1))).run (x :: .name k :: .value v :: promise p :: st) s =
      .ret ((), .value v :: promise p :: st) (setField s p k x) := fun x k s =>
    run_rawset (get_base_at [x, .name k, .value v] (promise p) st)
  have hvalue : Index.get (.name .value :: .value v :: promise p :: st) (.base (st.length + 2)) = .value v :=
    get_base_at [.name .value] (.value v) (promise p :: st)
  have hself : Index.get (.value v :: promise p :: st) (.base (st.length + 1)) = promise p :=
    get_base_at [.value v] (promise p) st
  have hlength : (Slot.value v :: promise p :: st).length = st.length + 2 := rfl
  have hsettop : ∀ s, (settop (st.length + 2)).run (promise p :: .value v :: promise p :: st) s =
      .ret ((), .value v :: promise p :: st) s := fun s => run_settop [promise p] rfl
  have hfinale := h.finale p (.value v :: promise p :: st) (s.settleResolve p v) hs.settleResolve (by
    simp only [State.settleResolve, State.settle, State.setPromise, Function.update_self]
    split <;> simp)
  rw [OnStack.resolve, Lua.resolve]
  simp only [run_bind, run_gettop, andThen_ret, isPromise, get_top, List.getD_cons_zero, Slot.toValue,
    Nat.sub_self, run_push, hlength, Nat.add_one_sub_one, hwhen, hrawset, run_pushvalue, hvalue, hself,
    setField_settle]
  rw [State.settleResolve] at hfinale
  simp only [hfinale, andThen_assoc, andThen_ret, hsettop]

theorem reject_run (w v : Value) (hs : Valued s) :
    (reject (n + 1)).run (.value v :: .value w :: st) s =
      (Lua.reject (n + 1) w v s).andThen fun _ s => .ret ((), .value v :: .value w :: st) s := by
  by_cases hw : ∃ p, w = .promise p
  · obtain ⟨p, rfl⟩ := hw
    have hstep : (reject (n + 1)).run (.value v :: promise p :: st) s =
        ((finale n).run (promise p :: .value v :: promise p :: st) (s.settle p .rejected v)).andThen
          fun r s => .ret ((), r.2.drop 1) s := by
      rw [← setField_settle]
      rfl
    have hsettled : ((s.settle p .rejected v).promises p).state ≠ .pending := by
      simp [State.settle, State.setPromise]
    refine hstep.trans ?_
    rw [h.finale p _ _ (hs.settle fun hx => by cases hx) hsettled, andThen_assoc, Lua.reject]
    rfl
  · rw [Lua.reject]
    · cases w with
      | promise p => exact absurd ⟨p, rfl⟩ hw
      | nil => rfl
      | num k => rfl
      | other k => rfl
    · exact fun p hp => hw ⟨p, hp⟩

/-- The number of the last handler, as `lua_next` wants it. -/
def lastKey (k : Nat) : Slot := if k = 0 then .nil else .value (.num k)

omit h in
theorem run_next {k p : Nat} {ds : List Deferred} (hds : (s.promises p).deferreds = .table ds) :
    (next (.base (st.length + 2))).run (lastKey k :: .deferreds p :: promise p :: st) s =
      match ds[k]? with
      | some d => .ret (true, .handler d :: lastKey (k + 1) :: .deferreds p :: promise p :: st) s
      | none => .ret (false, .deferreds p :: promise p :: st) s := by
  have hget : Index.get (lastKey k :: .deferreds p :: promise p :: st) (.base (st.length + 2)) = .deferreds p :=
    get_base_at [lastKey k] (.deferreds p) (promise p :: st)
  have htail : (lastKey k :: .deferreds p :: promise p :: st).tail = .deferreds p :: promise p :: st := rfl
  have hstep : ∀ j : Nat, (s.promises p).deferreds.toList[j]? = ds[j]? := by
    intro j
    rw [hds]
    rfl
  unfold next
  dsimp only
  rw [hget, List.headD_cons, htail]
  cases k with
  | zero =>
      dsimp only [lastKey, Slot.nil]
      rw [if_pos rfl, hstep]
      rfl
  | succ k =>
      dsimp only [lastKey]
      rw [if_neg (Nat.succ_ne_zero k)]
      dsimp only
      rw [hstep]
      rfl

omit h in
/-- A value that `handle` has left stands where the number of the handler should be. -/
theorem run_next_left (i : Index) (extra : Nat) (hextra : extra ≠ 0) (p q : Nat) (d : Deferred) :
    (next i).run ((List.replicate extra (promise q) ++ .handler d :: promise p :: .handler d :: st).drop 3) s =
      .raise luaError s := by
  cases extra with
  | zero => exact absurd rfl hextra
  | succ extra =>
      cases extra with
      | zero => rfl
      | succ extra =>
          cases extra with
          | zero => rfl
          | succ extra => cases extra <;> rfl

omit h in
/-- A call made for a handler of a settled promise leaves the other handlers on it. -/
theorem handle_later {p : Nat} {ds : List Deferred} {d : Option Deferred} (hs : Valued s)
    (hlive : SettledWith p (fun ds' => ds' = .table ds) s) :
    (Lua.handle n p d s).Holds fun s' => Valued s' ∧ SettledWith p (fun ds' => ds' = .table ds) s' := by
  have hvalued : (Lua.handle n p d s).Holds Valued := valued_lasting.handle hs
  have hsettled : (Lua.handle n p d s).Holds (SettledWith p fun ds' => ds' = .table ds) :=
    (settledWith_lasting p fun d hd => by cases hd).handle hlive
  exact hvalued.and hsettled

/-- The loop over the handlers that are left, after those of `before`. -/
theorem RefinesAt.forEach_run {p : Nat} {ds : List Deferred} (before : List Deferred) (hs : Valued s)
    (hlive : SettledWith p (fun ds' => ds' = .table (before ++ ds)) s) :
    (forEach (OnStack.handle n) (st.length + 2) (ds.length + 1)).run
        (lastKey before.length :: .deferreds p :: promise p :: st) s =
      (finaleLoop (fun d s => Lua.handle n p (some d) s) ds s).andThen fun _ s =>
        .ret ((), .deferreds p :: promise p :: st) s := by
  induction ds generalizing before s with
  | nil =>
      rw [forEach, run_bind, run_next hlive.2]
      simp
      rfl
  | cons d ds ih =>
      have hself : Index.get (.handler d :: lastKey (before.length + 1) :: .deferreds p :: promise p :: st)
          (.base (st.length + 1)) = promise p :=
        get_base_at [.handler d, lastKey (before.length + 1), .deferreds p] (promise p) st
      have hcall := h.handle p (some d)
        (.handler d :: lastKey (before.length + 1) :: .deferreds p :: promise p :: st) s hs
      rw [Slot.ofHandler] at hcall
      rw [forEach, run_bind, run_next hlive.2, finaleLoop]
      simp only [List.length_cons, Nat.le_refl, List.getElem?_append_right, Nat.sub_self,
        List.getElem?_cons_zero, andThen_ret, if_true, run_bind, run_pushvalue, Nat.add_one_sub_one, hself,
        get_top, List.getD_cons_succ, List.getD_cons_zero]
      rw [hcall, andThen_assoc, andThen_assoc]
      refine andThen_congr (handle_later hs hlive) fun extra s' hs' => ?_
      simp only [andThen_ret, run_pop]
      -- what is on top is the number of this handler, unless `handle` has left something
      by_cases hextra : extra = 0
      · rw [if_pos hextra, hextra]
        have hrest := ih (before ++ [d]) hs'.1 (by simpa using hs'.2)
        rw [List.length_append, List.length_singleton] at hrest
        exact hrest
      · rw [if_neg hextra, forEach, run_bind, run_next_left _ extra hextra]
        rfl

theorem finale_run (p : Nat) (hs : Valued s) (hp : (s.promises p).state ≠ .pending) :
    (finale (n + 1)).run (promise p :: st) s =
      (Lua.finale (n + 1) p s).andThen fun _ s => .ret ((), promise p :: st) s := by
  have hlength : (promise p :: st).length = st.length + 1 := rfl
  have hself : ∀ above, Index.get (above ++ promise p :: st) (.base (st.length + 1)) = promise p :=
    fun above => get_base_at above (promise p) st
  rw [OnStack.finale, Lua.finale]
  simp only [run_bind, run_gettop, andThen_ret, hlength]
  rw [run_getfield rfl]
  cases hds : (s.promises p).deferreds with
  | zero =>
      simp only [andThen_ret, field, hds, run_tointeger, run_pop, List.drop_succ_cons, List.drop_zero,
        Value.toInteger]
      rfl
  | one d =>
      -- the promise has settled, so that nothing else is put on it while the handler runs
      have hone : (Lua.handle n p d s).Holds (SettledWith p fun ds => ∃ d, ds = .one d) :=
        (settledWith_lasting p fun _ _ => ⟨none, rfl⟩).handle ⟨hp, d, hds⟩
      simp only [andThen_ret, field, hds, run_tointeger, run_pop, List.drop_succ_cons, List.drop_zero,
        Value.toInteger, if_true, run_bind, run_pushvalue]
      have hget : Index.get (promise p :: st) (.base (st.length + 1)) = promise p := hself []
      rw [hget, run_getfield rfl]
      simp only [andThen_ret, field, hds]
      rw [h.handle p d _ s hs, andThen_assoc, andThen_assoc]
      refine andThen_congr hone fun extra s' hs' => ?_
      obtain ⟨d', hd'⟩ := hs'.2
      have hforget : setField s' p .deferreds .nil = s'.setDeferreds p (.one none) := by
        simp [setField, hd', Slot.nil, Slot.toHandler]
      have hset : ∀ above, (setfield (.base (st.length + 1)) .deferreds).run (.nil :: (above ++ promise p :: st)) s' =
          .ret ((), above ++ promise p :: st) (setField s' p .deferreds .nil) := fun above =>
        run_setfield (hself (.nil :: above))
      have habove : List.replicate extra (promise (chainEnd s p)) ++ .ofHandler d :: promise p :: promise p :: st =
          (List.replicate extra (promise (chainEnd s p)) ++ [.ofHandler d, promise p]) ++ promise p :: st := by
        simp
      simp only [andThen_ret, run_push, habove, hset, hforget]
      exact run_settop _ rfl
  | table ds =>
      have hlive : SettledWith p (fun ds' => ds' = .table ds) s := ⟨hp, hds⟩
      have hobjlen : (objlen (.top 1)).run (.deferreds p :: promise p :: st) s =
          .ret (ds.length, .deferreds p :: promise p :: st) s := by
        simp [objlen, hds, Deferreds.toList]
      have hsettop : ∀ s, (settop (st.length + 1)).run (.deferreds p :: promise p :: st) s =
          .ret ((), promise p :: st) s := fun s => run_settop [.deferreds p] rfl
      simp only [andThen_ret, field, hds, run_tointeger, run_pop, List.drop_succ_cons, List.drop_zero,
        Value.toInteger]
      rw [if_neg (by decide), if_pos trivial, run_bind, run_getfield rfl]
      simp only [andThen_ret, field, hds, run_bind, run_gettop, List.length_cons, hobjlen, run_push]
      have hloop : (forEach (OnStack.handle n) (st.length + 2) (ds.length + 1)).run
          (lastKey 0 :: .deferreds p :: promise p :: st) s = _ := h.forEach_run [] hs hlive
      refine (congrArg (fun r => Ret.andThen r _) hloop).trans ?_
      simp only [andThen_assoc, andThen_ret, hsettop]

theorem handle_run (p : Nat) (d : Option Deferred) (hs : Valued s) :
    (handle (n + 1)).run (.ofHandler d :: promise p :: st) s =
      (Lua.handle (n + 1) p d s).andThen fun extra s' =>
        .ret ((), List.replicate extra (promise (chainEnd s p)) ++ .ofHandler d :: promise p :: st) s' := by
  have hself : Index.get (.ofHandler d :: promise p :: st) (.top 2) = promise p := rfl
  have hpromises : ∀ st : Stack, promises.run st s = .ret (s.count, st) s := fun _ => rfl
  rw [OnStack.handle, Lua.handle]
  simp only [run_bind, run_gettop, andThen_ret, run_pushvalue, List.length_cons, hself]
  rw [run_getfield rfl]
  simp only [andThen_ret, field, run_tostate, hpromises]
  rw [run_follow hs]
  cases hq : s.follow (s.count + 1) p with
  | none => rfl
  | some q =>
      have hend : chainEnd s p = q := by rw [chainEnd, hq, Option.getD_some]
      simp only [andThen_ret, run_pop, List.drop_succ_cons, List.drop_zero]
      by_cases hpending : (s.promises q).state = .pending
      · rw [if_pos hpending, if_pos hpending, hend]
        exact run_addDeferred d
      · rw [if_neg hpending, if_neg hpending]
        simp only [run_bind, run_pushvalue, andThen_ret, get_top, List.getD_cons_succ, List.getD_cons_zero,
          Nat.add_one_sub_one]
        rw [h.handleResolved q d _ s hs, andThen_assoc, andThen_assoc]
        rfl

omit h in
/-- The value, the handler and the error handler are put where `lua_pcall` wants them. -/
theorem run_prepare {q : Nat} (f : Fn) (d : Deferred) (rest : C Unit) :
    (do
      getfield (.base (st.length + 2 - 1)) .value
      pushvalue (.base (st.length + 2 - 1))
      let call ← calls
      let promise ← ref
      note (s.promises q).state
      push (.errorHandle call promise)
      insert (.base (st.length + 2))
      rest).run (.fn f :: .handler d :: promise q :: st) s =
    rest.run (.value (s.promises q).value :: .fn f :: .handler d ::
      .errorHandle s.calls.length (s.callHandler q d).1 :: promise q :: st) (s.callHandler q d).2 := by
  have hvalue : (getfield (.base (st.length + 1)) .value).run (.fn f :: .handler d :: promise q :: st) s =
      .ret ((), .value (s.promises q).value :: .fn f :: .handler d :: promise q :: st) s :=
    run_getfield (get_base_at [.fn f, .handler d] (promise q) st)
  have hself : Index.get (.value (s.promises q).value :: .fn f :: .handler d :: promise q :: st)
      (.base (st.length + 1)) = promise q :=
    get_base_at [.value (s.promises q).value, .fn f, .handler d] (promise q) st
  have hcalls : ∀ st, calls.run st s = .ret (s.calls.length, st) s := fun _ => rfl
  have href : ∀ st, ref.run (promise q :: st) s =
      .ret ((s.callHandler q d).1, st) (s.ref (.handler s.calls.length) (.promise q)).2 := fun _ => rfl
  have hnote : (note (s.promises q).state).run (.value (s.promises q).value :: .fn f :: .handler d :: promise q :: st)
      (s.ref (.handler s.calls.length) (.promise q)).2 =
      .ret ((), .value (s.promises q).value :: .fn f :: .handler d :: promise q :: st) (s.callHandler q d).2 := rfl
  have hinsert : ∀ x y s, (insert (.base (st.length + 2))).run (x :: y :: .fn f :: .handler d :: promise q :: st) s =
      .ret ((), y :: .fn f :: .handler d :: x :: promise q :: st) s := by
    intro x y s
    simp [insert, Index.depth]
  simp only [run_bind, Nat.add_one_sub_one, hvalue, andThen_ret, run_pushvalue, hself, hcalls, href, hnote,
    run_push, hinsert]

/-- What is left to do when the handler has come back. -/
def afterCall (resolve : C Unit) (old : Nat) (ok : Bool) : C Unit := do
  remove (.base old)
  getfield (.top 2) .promise
  if ok then do
    pushvalue (.top 2)
    resolve
    pop 3
  else do
    push (.handlers [])
    pop 3

omit h in
theorem run_remove (above : Stack) (x : Slot) (st : Stack) :
    (remove (.base (st.length + 1))).run (above ++ x :: st) s = .ret ((), above ++ st) s := by
  have hdepth : (above ++ x :: st).length - (st.length + 1) = above.length := by
    rw [List.length_append, List.length_cons]
    omega
  unfold remove Index.depth
  dsimp only
  rw [hdepth, List.eraseIdx_append_of_length_le (Nat.le_refl _)]
  simp

theorem run_afterCall_ok {q : Nat} {d : Deferred} {w : Value} {call r : Nat} (hs : Valued s) :
    (afterCall (OnStack.resolve n) (st.length + 2) true).run
        (.value w :: .handler d :: .errorHandle call r :: promise q :: st) s =
      (Lua.resolve n (.promise d.promise) w s).andThen fun _ s => .ret ((), .handler d :: promise q :: st) s := by
  have hremove : ∀ s, (remove (.base (st.length + 2))).run
      (.value w :: .handler d :: .errorHandle call r :: promise q :: st) s =
      .ret ((), .value w :: .handler d :: promise q :: st) s := fun s =>
    run_remove [.value w, .handler d] (.errorHandle call r) (promise q :: st)
  have hpromise : (getfield (.top 2) .promise).run (.value w :: .handler d :: promise q :: st) s =
      .ret ((), promise d.promise :: .value w :: .handler d :: promise q :: st) s := rfl
  have hcall := h.resolve d.promise w (.value w :: .handler d :: promise q :: st) s hs
  rw [afterCall]
  simp only [run_bind, hremove, andThen_ret, hpromise, if_true, run_pushvalue, get_top, List.getD_cons_succ,
    List.getD_cons_zero, Nat.add_one_sub_one, hcall, andThen_assoc, run_pop, List.drop_succ_cons, List.drop_zero]

omit h in
theorem run_afterCall_error {q : Nat} {d : Deferred} {x : Slot} {call r : Nat} :
    (afterCall (OnStack.resolve n) (st.length + 2) false).run
        (x :: .handler d :: .errorHandle call r :: promise q :: st) s =
      .ret ((), .handler d :: promise q :: st) s := by
  have hremove : ∀ s, (remove (.base (st.length + 2))).run
      (x :: .handler d :: .errorHandle call r :: promise q :: st) s =
      .ret ((), x :: .handler d :: promise q :: st) s := fun s =>
    run_remove [x, .handler d] (.errorHandle call r) (promise q :: st)
  rw [afterCall, run_bind, hremove]
  rfl

/-- The branch of `handleResolved` that calls the handler. -/
theorem called_run {q : Nat} {f : Fn} {d : Deferred} {st : Stack} {s : State} (hs : Valued s)
    (hf : d.selected (s.promises q).state = some f) :
    (do
      let ok ← pcall (OnStack.errorHandle n)
      afterCall (OnStack.resolve n) (st.length + 2) ok).run
        (.value (s.promises q).value :: .fn f :: .handler d ::
          .errorHandle s.calls.length (s.callHandler q d).1 :: promise q :: st) (s.callHandler q d).2 =
      (Lua.handleResolved (n + 1) q (some d) s).andThen fun _ s => .ret ((), .handler d :: promise q :: st) s := by
  have hcalled : Valued (s.callHandler q d).2 :=
    hs.congr (ref_same s (.handler s.calls.length) (.promise q)).promises
  rw [Lua.handleResolved]
  dsimp only
  rw [hf]
  dsimp only
  rw [run_bind]
  cases hv : f (s.promises q).value with
  | ok w =>
      have hpcall : ∀ st s', (pcall (OnStack.errorHandle n)).run (.value (s.promises q).value :: .fn f :: .handler d ::
          .errorHandle s.calls.length (s.callHandler q d).1 :: st) s' =
          .ret (true, .value w :: .handler d :: .errorHandle s.calls.length (s.callHandler q d).1 :: st) s' := by
        intro st s'
        simp [pcall, Slot.callee, hv]
      rw [hpcall, andThen_ret]
      exact run_afterCall_ok h hcalled
  | error e =>
      dsimp only
      by_cases herr : (s.callHandler q d).2.errerr = true
      · have hpcall : ∀ st, (pcall (OnStack.errorHandle n)).run (.value (s.promises q).value :: .fn f :: .handler d ::
            .errorHandle s.calls.length (s.callHandler q d).1 :: st) (s.callHandler q d).2 =
            .ret (false, .value e :: .handler d :: .errorHandle s.calls.length (s.callHandler q d).1 :: st)
              { s.threw q d with errerr := false } := by
          intro st
          simp [pcall, Slot.callee, hv, herr, State.threw]
        rw [hpcall, andThen_ret, if_pos herr]
        exact run_afterCall_error
      · have hpcall : ∀ st, (pcall (OnStack.errorHandle n)).run (.value (s.promises q).value :: .fn f :: .handler d ::
            .errorHandle s.calls.length (s.callHandler q d).1 :: st) (s.callHandler q d).2 =
            (OnStack.errorHandle n s.calls.length (s.callHandler q d).1 e { s.threw q d with errerr := true }).andThen
              fun x s' => .ret (false, x :: .handler d :: .errorHandle s.calls.length (s.callHandler q d).1 :: st)
                { s' with errerr := false } := by
          intro st
          simp [pcall, Slot.callee, hv, herr, State.threw]
        have hafter := h.errorHandle s.calls.length (s.callHandler q d).1 e { s.threw q d with errerr := true }
          (hcalled.congr rfl)
        rw [hpcall, if_neg herr]
        rw [State.threw] at hafter
        rw [← hafter, State.threw]
        simp only [andThen_assoc, andThen_ret, run_afterCall_error]

theorem handleResolved_run (q : Nat) (d : Option Deferred) (hs : Valued s) :
    (handleResolved (n + 1)).run (.ofHandler d :: promise q :: st) s =
      (Lua.handleResolved (n + 1) q d s).andThen fun _ s => .ret ((), .ofHandler d :: promise q :: st) s := by
  have hstate : (getfield (.top 2) .state).run (.ofHandler d :: promise q :: st) s =
      .ret ((), .state (s.promises q).state :: .ofHandler d :: promise q :: st) s := run_getfield rfl
  rw [OnStack.handleResolved]
  simp only [run_bind, hstate, andThen_ret, run_tostate, run_pop, List.drop_succ_cons, List.drop_zero,
    run_gettop]
  cases d with
  | none =>
      rw [Lua.handleResolved]
      cases (s.promises q).state <;> rfl
  | some d =>
      have hhandler : (getfield (.top 1)
          (if (s.promises q).state = .resolved then .onFulfilled else .onRejected)).run
            (.ofHandler (some d) :: promise q :: st) s =
          .ret ((), .ofFn (d.selected (s.promises q).state) :: .ofHandler (some d) :: promise q :: st) s := by
        rw [Deferred.selected]
        split <;> rfl
      rw [hhandler]
      cases hsel : d.selected (s.promises q).state with
      | none =>
          rw [Lua.handleResolved]
          dsimp only
          rw [hsel]
          dsimp only
          have hnil : ∀ st, (isnil (.top 1)).run (.ofFn none :: st) s = .ret (true, .ofFn none :: st) s :=
            fun _ => rfl
          have hpromise : (getfield (.top 1) .promise).run (.ofHandler (some d) :: promise q :: st) s =
              .ret ((), promise d.promise :: .ofHandler (some d) :: promise q :: st) s := rfl
          have hvalue : (getfield (.top 3) .value).run
              (promise d.promise :: .ofHandler (some d) :: promise q :: st) s =
              .ret ((), .value (s.promises q).value :: promise d.promise :: .ofHandler (some d) :: promise q :: st)
                s := run_getfield rfl
          simp only [andThen_ret, hnil, if_true, run_bind, run_pop, List.drop_succ_cons, List.drop_zero,
            hpromise, hvalue]
          split
          · rw [h.resolve _ _ _ s hs, andThen_assoc]
            rfl
          · rw [promise, h.reject _ _ _ s hs, andThen_assoc]
            rfl
      | some f =>
          have hfn : ∀ st, (isnil (.top 1)).run (.ofFn (some f) :: st) s = .ret (false, .ofFn (some f) :: st) s :=
            fun _ => rfl
          rw [andThen_ret]
          have hisnil := hfn (.ofHandler (some d) :: promise q :: st)
          simp only [hisnil, andThen_ret]
          rw [if_neg (by decide)]
          refine (run_prepare f d _).trans ?_
          exact called_run h hs hsel

theorem errorHandle_run (call r : Nat) (e : Value) (hs : Valued s) :
    (OnStack.errorHandle (n + 1) call r e s).andThen (fun _ s => .ret () s) =
      Lua.errorHandle (n + 1) call r e s := by
  have huse : Valued (s.use (.handler call) r) := hs.congr (use_same s (.handler call) r).promises
  have hslot : (s.use (.handler call) r).slots r = s.slots r := by rw [use_slots]
  have hbody : (do
      rawgeti call r
      pushvalue (.base 1)
      OnStack.reject n
      settop 1
      unref call r : C Unit).run [.value e] s =
      (Lua.reject n (s.slots r) e (s.use (.handler call) r)).andThen fun _ s =>
        .ret ((), [.value e]) (s.unref (.handler call) r) := by
    have hcall := h.reject (s.slots r) e [.value e] (s.use (.handler call) r) huse
    have hget : (rawgeti call r).run [.value e] s =
        .ret ((), [.value (s.slots r), .value e]) (s.use (.handler call) r) := rfl
    have herror : Index.get [.value (s.slots r), .value e] (.base 1) = .value e := rfl
    simp only [run_bind, hget, andThen_ret, run_pushvalue, herror, hcall, andThen_assoc]
    rfl
  rw [OnStack.errorHandle, Lua.errorHandle, hbody]
  have hlater : (Lua.reject n (s.slots r) e (s.use (.handler call) r)).Holds Valued := valued_lasting.reject huse
  cases hr : Lua.reject n (s.slots r) e (s.use (.handler call) r) with
  | ret a s' => rfl
  | raise e' s' =>
      rw [hr] at hlater
      simp only [andThen_raise]
      split
      · rfl
      · exact h.errorHandle call r e' _ (Valued.congr rfl hlater)
  | fault f => rfl

end Step

/-- With any depth of the C stack the functions leave the Lua stack as it was, but for what `handle` leaves. -/
theorem refinesAt (n : Nat) : RefinesAt n := by
  induction n with
  | zero => exact refinesAt_zero
  | succ n ih =>
      exact {
        resolve := fun p v st s hs => resolve_run ih p v hs
        reject := fun w v st s hs => reject_run ih w v hs
        finale := fun p st s hs hp => finale_run ih p hs hp
        handle := fun p d st s hs => handle_run ih p d hs
        handleResolved := fun q d st s hs => handleResolved_run ih q d hs
        errorHandle := fun call r e s hs => errorHandle_run ih call r e hs }

/-- `thennext`, up to the slots that it takes off at the end. -/
theorem thennext_run {depth p : Nat} {f g : Option Fn} {s : State} {d : Deferred} (hs : Valued s.newPromise.2)
    (hd : d = { onFulfilled := f, onRejected := g, promise := s.count }) :
    (OnStack.thennext depth).run [.ofFn g, .ofFn f, promise p] s =
      (Lua.handle depth p (some d) s.newPromise.2).andThen fun extra s' =>
        .ret ((), (List.replicate extra (promise (chainEnd s.newPromise.2 p)) ++
          [.handler d, promise p, .handler d, promise s.count, .ofFn g, .ofFn f, promise p]).drop 3) s' := by
  have hnew : newPromise.run [.ofFn g, .ofFn f, promise p] s =
      .ret ((), [promise s.count, .ofFn g, .ofFn f, promise p]) s.newPromise.2 := rfl
  have hhandler : Handler.run [promise s.count, .ofFn g, .ofFn f, promise p] s.newPromise.2 =
      .ret ((), [.handler d, promise s.count, .ofFn g, .ofFn f, promise p]) s.newPromise.2 := by
    rw [hd]
    cases f <;> cases g <;> rfl
  have hself : Index.get [.handler d, promise s.count, .ofFn g, .ofFn f, promise p] (.base 1) = promise p := rfl
  have hcall := (refinesAt depth).handle p (some d) [.handler d, promise s.count, .ofFn g, .ofFn f, promise p]
    s.newPromise.2 hs
  rw [Slot.ofHandler] at hcall
  have hwhen : (when (List.length [Slot.ofFn g, .ofFn f, promise p] < 3) (push .nil)).run
      [.ofFn g, .ofFn f, promise p] s = .ret ((), [.ofFn g, .ofFn f, promise p]) s := rfl
  rw [OnStack.thennext]
  simp only [run_bind, run_gettop, andThen_ret, hwhen, hnew, hhandler, run_pushvalue, hself, get_top,
    List.getD_cons_succ, List.getD_cons_zero, Nat.add_one_sub_one, hcall, andThen_assoc, run_pop]

end Yaos.Lua.OnStack
