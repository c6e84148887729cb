import Yaos.Lua.Promise.Proofs

set_option autoImplicit false

/-! # The calls that a call makes

`resolve` and `handle` call each other again and again for the handlers of the promises that they settle.
A property of the promises that each single `resolve` keeps, and everything else, is kept by the whole
call. -/

namespace Yaos.Lua

/-- A call of one of the functions, with its arguments. -/
inductive Call
  | resolve (self v : Value)
  | reject (self v : Value)
  | finale (p : Nat)
  | handle (p : Nat) (deferred : Option Deferred)
  | handleResolved (q : Nat) (deferred : Option Deferred)
  | errorHandle (call r : Nat) (e : Value)

/-- The state in which a handler has thrown `e`, up to the call of the error handler. -/
def State.threw (s : State) (q : Nat) (d : Deferred) : State :=
  { (s.callHandler q d).2 with thrown := (s.callHandler q d).2.thrown + 1 }

/-- The state in which `resolve` calls `finale`. -/
def State.settleResolve (s : State) (p : Nat) (v : Value) : State :=
  s.settle p (if v.isPromise then .resolving else .resolved) v

/-- A call in the state `s` calls another in the state `s'`; each has so much of the C stack. -/
inductive Calls : Nat → Call → State → Nat → Call → State → Prop
  | resolve (n p : Nat) (v : Value) (s : State) :
      Calls (n + 1) (.resolve (.promise p) v) s n (.finale p) (s.settleResolve p v)
  | reject (n p : Nat) (v : Value) (s : State) :
      Calls (n + 1) (.reject (.promise p) v) s n (.finale p) (s.settle p .rejected v)
  | one {n p : Nat} {s : State} {d : Option Deferred} (hd : (s.promises p).deferreds = .one d) :
      Calls (n + 1) (.finale p) s n (.handle p d) s
  | table {n p : Nat} {s s' : State} {before after : List Deferred} {d : Deferred}
      (hds : (s.promises p).deferreds = .table (before ++ d :: after))
      (hrun : finaleLoop (fun d s => Lua.handle n p (some d) s) before s = .ret () s') :
      Calls (n + 1) (.finale p) s n (.handle p (some d)) s'
  | handle {n p q : Nat} {s : State} {d : Option Deferred} (hq : s.follow (s.count + 1) p = some q)
      (hsettled : (s.promises q).state ≠ .pending) :
      Calls (n + 1) (.handle p d) s n (.handleResolved q d) s
  | passResolve {n q : Nat} {s : State} {d : Deferred}
      (hnone : d.selected (s.promises q).state = none) (hstate : (s.promises q).state = .resolved) :
      Calls (n + 1) (.handleResolved q (some d)) s n (.resolve (.promise d.promise) (s.promises q).value) s
  | passReject {n q : Nat} {s : State} {d : Deferred}
      (hnone : d.selected (s.promises q).state = none) (hstate : (s.promises q).state ≠ .resolved) :
      Calls (n + 1) (.handleResolved q (some d)) s n (.reject (.promise d.promise) (s.promises q).value) s
  | returns {n q : Nat} {s : State} {d : Deferred} {f : Fn} {v : Value}
      (hf : d.selected (s.promises q).state = some f) (hv : f (s.promises q).value = .ok v) :
      Calls (n + 1) (.handleResolved q (some d)) s n (.resolve (.promise d.promise) v)
        (s.callHandler q d).2
  | throws {n q : Nat} {s : State} {d : Deferred} {f : Fn} {e : Value}
      (hf : d.selected (s.promises q).state = some f) (he : f (s.promises q).value = .error e)
      (hfree : s.errerr = false) :
      Calls (n + 1) (.handleResolved q (some d)) s n (.errorHandle s.calls.length (s.callHandler q d).1 e)
        { s.threw q d with errerr := true }
  | errorHandle (n call r : Nat) (e : Value) (s : State) :
      Calls (n + 1) (.errorHandle call r e) s n (.reject (s.slots r) e) (s.use (.handler call) r)
  | again {n call r : Nat} {e e' : Value} {s s' : State}
      (hraise : Lua.reject n (s.slots r) e (s.use (.handler call) r) = .raise e' s')
      (hfree : s'.errerr = false) :
      Calls (n + 1) (.errorHandle call r e) s n (.errorHandle call r e') { s' with errerr := true }

/-- In the call, `p` is resolved with `v` in the state `t`. -/
inductive Resolves : Nat → Call → State → State → Nat → Value → Prop
  | here (n p : Nat) (v : Value) (t : State) : Resolves n (.resolve (.promise p) v) t t p v
  | inside {n m p : Nat} {c c' : Call} {s s' t : State} {v : Value} (hcall : Calls n c s m c' s')
      (h : Resolves m c' s' t p v) : Resolves n c s t p v

/-- What holds of the state in which a function returns or through which it throws; a call that never ends
    is one for which `H` holds. -/
def Ret.Sound {α : Type} (H : Prop) (P : State → Prop) : Ret α → Prop
  | .ret _ s => P s
  | .raise _ s => P s
  | .fault f => f = .hang → H

theorem Ret.Sound.andThen {α β : Type} {H : Prop} {P Q : State → Prop} {r : Ret α}
    {k : α → State → Ret β} (h : r.Sound H P) (hPQ : ∀ s, P s → Q s)
    (hk : ∀ a s, r = .ret a s → P s → (k a s).Sound H Q) : (r.andThen k).Sound H Q := by
  cases r with
  | ret a s => exact hk a s rfl h
  | raise e s => exact hPQ s h
  | fault f => exact h

theorem Ret.Sound.and {α : Type} {H : Prop} {P Q : State → Prop} {r : Ret α} (h : r.Sound H P)
    (hQ : r.Holds Q) : r.Sound H fun s => Q s ∧ P s := by
  cases r with
  | ret a s => exact ⟨hQ, h⟩
  | raise e s => exact ⟨hQ, h⟩
  | fault f => exact h

theorem Ret.Sound.holds {α : Type} {H : Prop} {P : State → Prop} {r : Ret α} (h : r.Sound H P) :
    r.Holds P := by
  cases r with
  | ret a s => exact h
  | raise e s => exact h
  | fault f => trivial

/-- `I` is a property of the promises. It is kept by `resolve` where `ok` holds of it, and by whatever else
    is done to a promise; `J` is an invariant already known. -/
structure Closed (J I : State → Prop) (ok : State → Nat → Value → Prop) (H : Prop) : Prop where
  congr : ∀ {s s'}, s'.promises = s.promises → I s → I s'
  resolve : ∀ {s p v}, J s → I s → ok s p v → I (s.settleResolve p v)
  reject : ∀ {s p v}, J s → I s → I (s.settle p .rejected v)
  register : ∀ {s q d}, I s → (s.promises q).state = .pending → I (s.register q d).2
  forget : ∀ {s s' p d}, I s → (s.promises p).deferreds = .one d → I s' → I (s'.setDeferreds p (.one none))
  follow : ∀ {s p}, J s → I s → s.follow (s.count + 1) p = none → H

section Closed

variable {Hand : Deferred → Prop} {May : State → Nat → Prop} {J I : State → Prop}
  {ok : State → Nat → Value → Prop} {H : Prop}

/-- Each `resolve` in the call is one for which `ok` holds. -/
def AllOk (ok : State → Nat → Value → Prop) (n : Nat) (c : Call) (s : State) : Prop :=
  ∀ t p v, Resolves n c s t p v → ok t p v

theorem AllOk.calls {n m : Nat} {c c' : Call} {s s' : State} (h : AllOk ok n c s)
    (hcall : Calls n c s m c' s') : AllOk ok m c' s' := fun t p v hr => h t p v (.inside hcall hr)

/-- What the functions keep with a given depth of the stack. -/
structure SoundAt (Hand : Deferred → Prop) (May : State → Nat → Prop) (J I : State → Prop)
    (ok : State → Nat → Value → Prop) (H : Prop) (n : Nat) : Prop where
  resolve : ∀ p v s, J s → I s → May s p → AllOk ok n (.resolve (.promise p) v) s →
    (resolve n (.promise p) v s).Sound H I
  reject : ∀ p v s, J s → I s → May s p → AllOk ok n (.reject (.promise p) v) s →
    (reject n (.promise p) v s).Sound H I
  finale : ∀ p s, J s → I s → AllOk ok n (.finale p) s → (finale n p s).Sound H I
  handle : ∀ p d s, J s → I s → (∀ x, d = some x → Hand x) → AllOk ok n (.handle p d) s →
    (handle n p d s).Sound H I
  handleResolved : ∀ q d s, J s → I s → (∀ x, d = some x → Hand x) → (s.promises q).state ≠ .pending →
    AllOk ok n (.handleResolved q d) s → (handleResolved n q d s).Sound H I
  errorHandle : ∀ call r e s, MayCall Hand → J s → I s → s.thrown ≠ 0 →
    AllOk ok n (.errorHandle call r e) s → (errorHandle n call r e s).Sound H I

theorem stackOverflow_sound {α : Type} : (stackOverflow : Ret α).Sound H I := by
  intro h
  cases h

theorem soundAt_zero : SoundAt Hand May J I ok H 0 := by
  refine ⟨fun p v s _ _ _ _ => ?_, fun p v s _ _ _ _ => ?_, fun p s _ _ _ => ?_, fun p d s _ _ _ _ => ?_,
    fun q d s _ _ _ _ _ => ?_, fun call r e s _ _ _ _ _ => ?_⟩
  · rw [resolve]
    exact stackOverflow_sound
  · rw [reject]
    exact stackOverflow_sound
  · rw [finale]
    exact stackOverflow_sound
  · rw [handle]
    exact stackOverflow_sound
  · rw [handleResolved]
    exact stackOverflow_sound
  · rw [errorHandle]
    exact stackOverflow_sound

theorem finaleLoop_append {h : Deferred → State → Ret Nat} {before : List Deferred} {d : Deferred}
    {s s₁ s₂ : State} (hbefore : finaleLoop h before s = .ret () s₁) (hd : h d s₁ = .ret 0 s₂) :
    finaleLoop h (before ++ [d]) s = .ret () s₂ := by
  induction before generalizing s with
  | nil =>
      obtain ⟨-, rfl⟩ := Ret.ret.inj hbefore
      rw [List.nil_append, finaleLoop, hd, Ret.andThen, if_pos rfl, finaleLoop]
  | cons x before ih =>
      rw [List.cons_append, finaleLoop]
      rw [finaleLoop] at hbefore
      obtain ⟨extra, s', hx, hbefore⟩ := Ret.andThen_eq_ret.1 hbefore
      split_ifs at hbefore with hextra
      rw [hx, Ret.andThen, if_pos hextra]
      exact ih hbefore

section Step

variable {n : Nat} (hstable : Stable Hand May J) (hclosed : Closed J I ok H)
  (h : SoundAt Hand May J I ok H n) {s : State}
include hstable h

/-- The turns of the loop that are left, after those for `before`. -/
theorem finaleLoop_sound {p : Nat} {s₀ : State} {ds : List Deferred} (before : List Deferred)
    (hds : (s₀.promises p).deferreds = .table (before ++ ds))
    (hrun : finaleLoop (fun d s => Lua.handle n p (some d) s) before s₀ = .ret () s)
    (hhand : ∀ d ∈ ds, Hand d) (hJ : J s) (hI : I s) (hok : AllOk ok (n + 1) (.finale p) s₀) :
    (finaleLoop (fun d s => Lua.handle n p (some d) s) ds s).Sound H I := by
  induction ds generalizing before s with
  | nil => exact hI
  | cons d ds ih =>
      have hd : ∀ x, some d = some x → Hand x := fun x hx => Option.some.inj hx ▸ hhand d List.mem_cons_self
      have hone := (h.handle p (some d) s hJ hI hd (hok.calls (.table hds hrun))).and
        ((hstable.keeps n).handle p (some d) s hJ hd)
      rw [finaleLoop]
      refine hone.andThen (fun s' h' => h'.2) fun extra s' hret h' => ?_
      split_ifs with hextra
      · rw [hextra] at hret
        exact ih (before ++ [d]) (by rw [hds]; simp) (finaleLoop_append hrun hret)
          (fun x hx => hhand x (List.mem_cons_of_mem _ hx)) h'.1.1 h'.2
      · exact h'.2

include hclosed

theorem Closed.sound_finale {p : Nat} (hJ : J s) (hI : I s) (hok : AllOk ok (n + 1) (.finale p) s) :
    (finale (n + 1) p s).Sound H I := by
  have hhand : ∀ d ∈ (s.promises p).deferreds.toList, Hand d := fun d hd => hstable.hand hJ hd
  rw [finale]
  cases hds : (s.promises p).deferreds with
  | zero => exact hI
  | one d =>
      rw [hds] at hhand
      have hd : ∀ x, d = some x → Hand x := fun x hx => hhand x (by simp [Deferreds.toList, hx])
      refine (h.handle p d s hJ hI hd (hok.calls (.one hds))).andThen (fun _ h' => h') fun _ s' _ h' => ?_
      exact hclosed.forget hI hds h'
  | table ds =>
      rw [hds] at hhand
      exact finaleLoop_sound hstable h [] hds rfl hhand hJ hI hok

omit hstable in
theorem Closed.sound_handle {p : Nat} {d : Option Deferred} (hJ : J s) (hI : I s)
    (hd : ∀ x, d = some x → Hand x) (hok : AllOk ok (n + 1) (.handle p d) s) :
    (handle (n + 1) p d s).Sound H I := by
  rw [handle]
  split
  case h_1 hnone => exact fun _ => hclosed.follow hJ hI hnone
  case h_2 q hq =>
      split
      case isTrue hpending => exact hclosed.register hI hpending
      case isFalse hsettled =>
          exact (h.handleResolved q d s hJ hI hd hsettled (hok.calls (.handle hq hsettled))).andThen
            (fun _ h' => h') fun _ _ _ h' => h'

theorem Closed.sound_errorHandle {call r : Nat} {e : Value} (hcall : MayCall Hand) (hJ : J s) (hI : I s)
    (hthrown : s.thrown ≠ 0) (hok : AllOk ok (n + 1) (.errorHandle call r e) s) :
    (errorHandle (n + 1) call r e s).Sound H I := by
  have hsame := use_same s (.handler call) r
  have huse : I (s.use (.handler call) r) := hclosed.congr hsame.promises hI
  have hJuse : J (s.use (.handler call) r) := hstable.use hcall hJ hthrown
  have hthrown' : (s.use (.handler call) r).thrown ≠ 0 := hsame.thrown ▸ hthrown
  -- where the slot does not hold a promise any more, `reject` does nothing
  have hreject : (Lua.reject n (s.slots r) e (s.use (.handler call) r)).Sound H
      fun s' => (J s' ∧ s'.thrown ≠ 0) ∧ I s' := by
    by_cases hv : ∃ p, s.slots r = .promise p
    · obtain ⟨p, hv⟩ := hv
      have hmay := hstable.slot (r := r) hcall hJuse hthrown' (use_slots s (.handler call) r ▸ hv)
      have hok' := hok.calls (.errorHandle n call r e s)
      rw [hv] at hok' ⊢
      refine (h.reject p e _ hJuse huse hmay hok').and ?_
      refine ((hstable.keeps n).reject p e _ hJuse hmay).mono fun s' h' => ⟨h'.1, ?_⟩
      have := h'.2
      omega
    · cases n with
      | zero =>
          rw [Lua.reject]
          exact stackOverflow_sound
      | succ n =>
          rw [Lua.reject]
          · exact ⟨⟨hJuse, hthrown'⟩, huse⟩
          · exact fun p hp => hv ⟨p, hp⟩
  rw [errorHandle]
  cases hr : Lua.reject n (s.slots r) e (s.use (.handler call) r) with
  | fault f =>
      rw [hr] at hreject
      exact hreject
  | ret a s₁ =>
      rw [hr] at hreject
      exact hclosed.congr (unref_same s₁ (.handler call) r).promises hreject.2
  | raise e' s₁ =>
      rw [hr] at hreject
      dsimp only
      split
      case isTrue => exact hreject.2
      case isFalse hfree =>
          have hfree : s₁.errerr = false := by simpa using hfree
          exact h.errorHandle call r e' _ hcall (hstable.errerr true hreject.1.1)
            (hclosed.congr (s := s₁) rfl hreject.2) hreject.1.2 (hok.calls (.again hr hfree))

theorem Closed.sound_handleResolved {q : Nat} {d : Option Deferred} (hJ : J s) (hI : I s)
    (hd : ∀ x, d = some x → Hand x) (hq : (s.promises q).state ≠ .pending)
    (hok : AllOk ok (n + 1) (.handleResolved q d) s) : (handleResolved (n + 1) q d s).Sound H I := by
  cases d with
  | none =>
      rw [handleResolved]
      exact hI
  | some d =>
      have hhand := hd d rfl
      rw [handleResolved]
      dsimp only
      cases hsel : d.selected (s.promises q).state with
      | none =>
          dsimp only
          split
          case isTrue hstate =>
              exact h.resolve d.promise _ s hJ hI (hstable.target hJ hhand) (hok.calls (.passResolve hsel hstate))
          case isFalse hstate =>
              exact h.reject d.promise _ s hJ hI (hstable.target hJ hhand) (hok.calls (.passReject hsel hstate))
      | some f =>
          have hcall : MayCall Hand := ⟨d, (s.promises q).state, hhand, by simp [hsel]⟩
          have hJ₁ : J (s.callHandler q d).2 := hstable.call hcall hJ hq
          have hsame := ref_same s (.handler s.calls.length) (.promise q)
          have hI₁ : I (s.callHandler q d).2 := hclosed.congr hsame.promises hI
          dsimp only
          cases hv : f (s.promises q).value with
          | ok v =>
              exact h.resolve d.promise v _ hJ₁ hI₁ (hstable.target hJ₁ hhand) (hok.calls (.returns hsel hv))
          | error e =>
              have hJ₂ := hstable.throws hcall hJ₁
              dsimp only
              split
              case isTrue => exact hclosed.congr (s := (s.callHandler q d).2) rfl hI₁
              case isFalse hfree =>
                  have hlater : (s.callHandler q d).2.errerr = false := by simpa using hfree
                  have hfree : s.errerr = false := hsame.errerr.symm.trans hlater
                  refine (h.errorHandle s.calls.length (s.callHandler q d).1 e _ hcall
                    (hstable.errerr true hJ₂) (hclosed.congr (s := (s.callHandler q d).2) rfl hI₁) (Nat.succ_ne_zero _)
                    (hok.calls (.throws hsel hv hfree))).andThen (fun _ h' => h') fun _ s' _ h' => ?_
                  exact hclosed.congr (s := s') rfl h'

end Step

/-- What each `resolve` of a call keeps is kept by the call. -/
theorem Closed.sound (hstable : Stable Hand May J) (hclosed : Closed J I ok H) (n : Nat) :
    SoundAt Hand May J I ok H n := by
  induction n with
  | zero => exact soundAt_zero
  | succ n ih =>
      refine ⟨fun p v s hJ hI hp hok => ?_, fun p v s hJ hI hp hok => ?_,
        fun p s hJ hI hok => hclosed.sound_finale hstable ih hJ hI hok,
        fun p d s hJ hI hd hok => hclosed.sound_handle ih hJ hI hd hok,
        fun q d s hJ hI hd hq hok => hclosed.sound_handleResolved hstable ih hJ hI hd hq hok,
        fun call r e s hcall hJ hI ht hok => hclosed.sound_errorHandle hstable ih hcall hJ hI ht hok⟩
      · rw [Lua.resolve]
        refine ih.finale p _ (hstable.settle v hJ hp ?_) (hclosed.resolve hJ hI (hok _ _ _ (.here ..)))
          (hok.calls (.resolve n p v s))
        split
        · simp
        · simp
      · rw [Lua.reject]
        exact ih.finale p _ (hstable.settle v hJ hp (by simp)) (hclosed.reject hJ hI)
          (hok.calls (.reject n p v s))

end Closed

/-! ## Invariants in the calls -/

/-- The arguments of a call are such as an invariant wants them. -/
def Call.Given (Hand : Deferred → Prop) (May : State → Nat → Prop) (s : State) : Call → Prop
  | .resolve self _ => ∀ p, self = .promise p → May s p
  | .reject self _ => ∀ p, self = .promise p → May s p
  | .finale p => (s.promises p).state ≠ .pending
  | .handle _ d => ∀ x, d = some x → Hand x
  | .handleResolved q d => (∀ x, d = some x → Hand x) ∧ (s.promises q).state ≠ .pending
  | .errorHandle _ _ _ => MayCall Hand ∧ s.thrown ≠ 0

section Calls

variable {Hand : Deferred → Prop} {May : State → Nat → Prop} {I : State → Prop} {n m p : Nat} {c c' : Call}
  {s s' : State} {v : Value}

theorem settle_not_pending {x : PState} (hx : x ≠ .pending) : ((s.settle p x v).promises p).state ≠ .pending := by
  simpa [State.settle, State.setPromise] using hx

theorem settleResolve_not_pending : ((s.settleResolve p v).promises p).state ≠ .pending := by
  refine settle_not_pending ?_
  split <;> simp

/-- What the functions keep holds in every call that they make. -/
theorem Stable.calls (hstable : Stable Hand May I) (hcall : Calls n c s m c' s') (hI : I s)
    (hc : c.Given Hand May s) : I s' ∧ c'.Given Hand May s' := by
  cases hcall with
  | resolve n p v s =>
      refine ⟨hstable.settle v hI (hc p rfl) ?_, settleResolve_not_pending⟩
      split <;> simp
  | reject n p v s => exact ⟨hstable.settle v hI (hc p rfl) (by simp), settle_not_pending (by simp)⟩
  | @one _ p _ d hd =>
      refine ⟨hI, fun x hx => hstable.hand (p := p) hI ?_⟩
      simp [hd, Deferreds.toList, hx]
  | @table _ p _ _ before after d hds hrun =>
      have hhand : ∀ x ∈ before ++ d :: after, Hand x := fun x hx =>
        hstable.hand hI (by rw [hds]; exact hx)
      have hbefore := finaleLoop_keeps (fun x hx s hs => (hstable.keeps m).handle p (some x) s hs fun y hy =>
        Option.some.inj hy ▸ hhand x (List.mem_append_left _ hx)) hI
      rw [hrun] at hbefore
      exact ⟨hbefore.1, fun x hx => Option.some.inj hx ▸ hhand d (by simp)⟩
  | handle hq hsettled => exact ⟨hI, hc, hsettled⟩
  | @passResolve _ q _ d hnone hstate =>
      refine ⟨hI, fun p hp => ?_⟩
      rw [← Value.promise.inj hp]
      exact hstable.target hI (hc.1 d rfl)
  | @passReject _ q _ d hnone hstate =>
      refine ⟨hI, fun p hp => ?_⟩
      rw [← Value.promise.inj hp]
      exact hstable.target hI (hc.1 d rfl)
  | @returns _ q _ d f v hf hv =>
      have hcalled := hstable.call (d := d) ⟨d, (s.promises q).state, hc.1 d rfl, by simp [hf]⟩ hI hc.2
      refine ⟨hcalled, fun p hp => ?_⟩
      rw [← Value.promise.inj hp]
      exact hstable.target hcalled (hc.1 d rfl)
  | @throws _ q _ d f e hf he hfree =>
      have hmay : MayCall Hand := ⟨d, (s.promises q).state, hc.1 d rfl, by simp [hf]⟩
      exact ⟨hstable.errerr true (hstable.throws hmay (hstable.call hmay hI hc.2)), hmay, Nat.succ_ne_zero _⟩
  | errorHandle n call r e s =>
      have hsame := use_same s (.handler call) r
      have huse : I (s.use (.handler call) r) := hstable.use hc.1 hI hc.2
      refine ⟨huse, fun p hp => hstable.slot (r := r) hc.1 huse (by rw [hsame.thrown]; exact hc.2) ?_⟩
      rw [use_slots]
      exact hp
  | @again _ call r e e' _ s₁ hraise hfree =>
      have hsame := use_same s (.handler call) r
      have huse : I (s.use (.handler call) r) := hstable.use hc.1 hI hc.2
      have hthrown : (s.use (.handler call) r).thrown ≠ 0 := by
        rw [hsame.thrown]
        exact hc.2
      have hafter : (Lua.reject m (s.slots r) e (s.use (.handler call) r)).Holds fun t => I t ∧ t.thrown ≠ 0 := by
        by_cases hself : ∃ p, s.slots r = .promise p
        · obtain ⟨p, hp⟩ := hself
          have hmay : May (s.use (.handler call) r) p :=
            hstable.slot hc.1 huse hthrown (by rw [use_slots]; exact hp)
          rw [hp]
          refine ((hstable.keeps m).reject p e _ huse hmay).mono fun t ht => ⟨ht.1, ?_⟩
          exact Nat.ne_of_gt (Nat.lt_of_lt_of_le (Nat.pos_of_ne_zero hthrown) ht.2)
        · exact reject_other (fun p hp => hself ⟨p, hp⟩) ⟨huse, hthrown⟩
      rw [hraise] at hafter
      exact ⟨hstable.errerr true hafter.1, hc.1, hafter.2⟩

end Calls

end Yaos.Lua
