import Yaos.Lib.Run
import Yaos.Lua.Promise.Proofs

set_option autoImplicit false

/-! # Handlers that throw

`error_handle` rejects the promise whose handler was called, and the branch after `lua_pcall` does not
reject the new one. -/

namespace Yaos.Lua

/-! ## Promises that nothing refers to -/

/-- A promise that is the value is one of the first `n`. -/
def Value.Below (n : Nat) (v : Value) : Prop := ∀ q, v = .promise q → q < n

/-- There are `n` promises, and the numbers from `n` on are not in use. -/
structure Bounded (n : Nat) (s : State) : Prop where
  count : s.count = n
  target : ∀ p, ∀ d ∈ (s.promises p).deferreds.toList, d.promise < n
  slot : ∀ r, (s.slots r).Below n
  pending : ∀ p, n ≤ p → (s.promises p).state = .pending

theorem Value.below_num (n k : Nat) : (Value.num k).Below n := fun _ h => absurd h (by simp)

section Primitive

variable {n p : Nat} {s s' : State}

theorem Bounded.setPromise {x : Promise} (h : Bounded n s) (hx : ∀ d ∈ x.deferreds.toList, d.promise < n)
    (hp : n ≤ p → x.state = .pending) : Bounded n (s.setPromise p x) := by
  refine ⟨h.count, fun q => ?_, h.slot, fun q hq => ?_⟩
  · by_cases hqp : q = p
    · subst hqp
      simpa [State.setPromise] using hx
    · simpa [State.setPromise, hqp] using h.target q
  · by_cases hqp : q = p
    · subst hqp
      simpa [State.setPromise] using hp hq
    · simpa [State.setPromise, hqp] using h.pending q hq

theorem Bounded.settle (h : Bounded n s) (hp : p < n) (state : PState) (v : Value) :
    Bounded n (s.settle p state v) := by
  have hset : Bounded n (s.setPromise p { s.promises p with state := state, value := v }) :=
    h.setPromise (h.target p) fun hle => absurd hp (Nat.not_lt.2 hle)
  exact ⟨hset.count, hset.target, hset.slot, hset.pending⟩

theorem Bounded.registry (h : Bounded n s) (hsame : SameButRegistry s s')
    (hslots : ∀ r, (s'.slots r).Below n) : Bounded n s' :=
  ⟨hsame.count.trans h.count, hsame.promises ▸ h.target, hslots, hsame.promises ▸ h.pending⟩

theorem Bounded.ref {o : Owner} {v : Value} (h : Bounded n s) (hv : v.Below n) :
    Bounded n (s.ref o v).2 := h.registry (ref_same ..) (ref_slots h.slot hv)

theorem Bounded.unref (h : Bounded n s) (o : Owner) (r : Nat) : Bounded n (s.unref o r) :=
  h.registry (unref_same ..) (unref_slots h.slot (Value.below_num n r))

theorem Bounded.use (h : Bounded n s) (o : Owner) (r : Nat) : Bounded n (s.use o r) :=
  h.registry (use_same ..) (use_slots s o r ▸ h.slot)

theorem Bounded.rawseti {o : Owner} {r k : Nat} (h : Bounded n s) :
    Bounded n (s.rawseti o r (.num k)) :=
  h.registry (rawseti_same ..) (rawseti_slots h.slot (Value.below_num n k))

theorem Bounded.stable (n : Nat) :
    Stable (fun d => d.promise < n) (fun _ p => p < n) (Bounded n) where
  hand := fun h hd => h.target _ _ hd
  target := fun _ hd => hd
  settle := fun v h hp _ => h.settle hp _ v
  setDeferreds := fun h hds => h.setPromise hds (h.pending _)
  errerr := fun _ h => ⟨h.count, h.target, h.slot, h.pending⟩
  call := fun {s q d} _ h hq => by
    have hqn : q < n := Nat.lt_of_not_le fun hle => hq (h.pending q hle)
    have href := h.ref (o := .handler s.calls.length) (v := .promise q) fun t ht => by
      rw [← Value.promise.inj ht]
      exact hqn
    exact ⟨href.count, href.target, href.slot, href.pending⟩
  throws := fun _ h => ⟨h.count, h.target, h.slot, h.pending⟩
  slot := fun _ h _ hr => h.slot _ _ hr
  use := fun _ h _ => h.use _ _
  unref := fun _ h _ => h.unref _ _

end Primitive

/-! ## Runs -/

section Runs

variable {depth n p : Nat} {s : State}

theorem Bounded.newPromise (h : Bounded n s) : Bounded (n + 1) s.newPromise.2 := by
  have hset : Bounded n (s.setPromise s.count
      { state := .pending, value := .nil, deferreds := .zero, refs := none }) :=
    h.setPromise (by simp [Deferreds.toList]) fun _ => rfl
  refine ⟨congrArg (· + 1) h.count, fun p d hd => Nat.lt_succ_of_lt (hset.target p d hd), fun r q hq =>
    Nat.lt_succ_of_lt (hset.slot r q hq), fun p hp => hset.pending p (Nat.le_of_succ_le hp)⟩

/-- A callback settles what it finds in its slot. -/
theorem Bounded.resolveSlot (depth : Nat) (h : Bounded n s) (r : Nat) (v : Value) :
    (resolve depth (s.slots r) v s).Holds (Bounded n) := by
  by_cases hself : ∃ p, s.slots r = .promise p
  · obtain ⟨p, hp⟩ := hself
    rw [hp]
    exact (((Bounded.stable n).keeps depth).resolve p v s h (h.slot r p hp)).mono fun _ h' => h'.1
  · exact resolve_other (fun p hp => hself ⟨p, hp⟩) h

theorem Bounded.rejectSlot (depth : Nat) (h : Bounded n s) (r : Nat) (v : Value) :
    (reject depth (s.slots r) v s).Holds (Bounded n) := by
  by_cases hself : ∃ p, s.slots r = .promise p
  · obtain ⟨p, hp⟩ := hself
    rw [hp]
    exact (((Bounded.stable n).keeps depth).reject p v s h (h.slot r p hp)).mono fun _ h' => h'.1
  · exact reject_other (fun p hp => hself ⟨p, hp⟩) h

theorem Bounded.aim (h : Bounded n s) (p : Nat) (self : Value) : Bounded n (s.aim p self) := by
  rw [State.aim]
  split
  · exact h
  · exact ⟨h.count, h.target, h.slot, h.pending⟩

theorem Bounded.myResolve {v : Value} (h : Bounded n s) :
    (myResolve depth p v s).Holds (Bounded n) := by
  rw [Lua.myResolve]
  split
  · exact h
  case h_2 index self hrefs =>
      have hdone : ∀ r : Ret Unit, r.Holds (Bounded n) →
          (r.andThen fun _ s => .ret () ((s.unref (.flag p) index).unref (.self p) self)).Holds
            (Bounded n) := fun r hr =>
        hr.andThen (fun _ h => h) fun _ _ h' => (h'.unref _ _).unref _ _
      dsimp only
      split
      · exact hdone _ (h.use _ _)
      · have hs := ((h.use (.flag p) index).rawseti (o := .flag p) (r := index) (k := 1)).use
          (.self p) self
        have haim := hs.aim p (((((s.use (.flag p) index).rawseti (.flag p) index (.num 1)).use
          (.self p) self)).slots self)
        have hresolve := haim.resolveSlot depth self v
        rw [aim_slots] at hresolve
        exact hdone _ hresolve

theorem Bounded.myReject {v : Value} (h : Bounded n s) :
    (myReject depth p v s).Holds (Bounded n) := by
  rw [Lua.myReject]
  split
  · exact h
  case h_2 index self hrefs =>
      dsimp only
      split
      · exact h.use _ _
      · have hs := ((h.use (.flag p) index).rawseti (o := .flag p) (r := index) (k := 1)).use
          (.self p) self
        have haim := hs.aim p (((((s.use (.flag p) index).rawseti (.flag p) index (.num 1)).use
          (.self p) self)).slots self)
        have hreject := haim.rejectSlot depth self v
        rw [aim_slots] at hreject
        exact hreject

theorem Bounded.startExecutor (h : Bounded n s) (hp : p < n) : Bounded n (s.startExecutor p) := by
  rw [State.startExecutor]
  dsimp only
  have hs := h.ref (o := .flag p) (Value.below_num n 0)
  have hs' := hs.ref (o := .self p) (v := .promise p) fun q hq => by
    rw [← Value.promise.inj hq]
    exact hp
  have hset := hs'.setPromise (p := p)
    (x := { (((s.ref (.flag p) (.num 0)).2.ref (.self p) (.promise p)).2.promises p) with
            refs := some ((s.ref (.flag p) (.num 0)).1,
              ((s.ref (.flag p) (.num 0)).2.ref (.self p) (.promise p)).1) })
    (hs'.target p) (hs'.pending p)
  exact ⟨hset.count, hset.target, hset.slot, hset.pending⟩

theorem Bounded.executorThrows (h : Bounded n s) : Bounded n (s.executorThrows p) := by
  rw [State.executorThrows]
  split
  · exact h
  · dsimp only
    split
    · exact (h.use _ _).rawseti
    · exact h.use _ _

theorem Bounded.thennext {f g : Option Fn} (h : Bounded n s) :
    (thennext depth p f g s).Holds (Bounded (n + 1)) := by
  have hd : s.newPromise.1 < n + 1 := h.count ▸ Nat.lt_succ_self _
  rw [Lua.thennext]
  refine Ret.Holds.andThen (P := Bounded (n + 1)) ?_ (fun _ h' => h') fun _ _ h' => h'
  refine (((Bounded.stable (n + 1)).keeps depth).handle p _ _ h.newPromise ?_).mono fun _ h' => h'.1
  intro d hd'
  rw [← Option.some.inj hd']
  exact hd

theorem Bounded.step {s' : State} {c : Step} (h : Bounded n s) (hrun : step depth s c = .ok s') :
    ∃ n', Bounded n' s' := by
  cases step_effect hrun with
  | refused => exact ⟨n, h⟩
  | new => exact ⟨n + 1, h.newPromise.startExecutor (h.count ▸ Nat.lt_succ_self _)⟩
  | plain => exact ⟨n + 1, h.newPromise⟩
  | leave => exact ⟨n, h.count, h.target, h.slot, h.pending⟩
  | @throw p rest hrunning =>
      have hs := h.executorThrows (p := p)
      exact ⟨n, hs.count, hs.target, hs.slot, hs.pending⟩
  | resolve hv hrefs hcall =>
      have hs := h.myResolve.of_caught hcall
      exact ⟨n, hs.count, hs.target, hs.slot, hs.pending⟩
  | reject hv hcall => exact ⟨n, h.myReject.of_caught hcall⟩
  | next hp hcall => exact ⟨n + 1, h.thennext.of_caught hcall⟩
  | ref hv => exact ⟨n, h.ref (h.count ▸ hv)⟩
  | unref hr => exact ⟨n, h.unref _ _⟩

theorem Bounded.init : Bounded 0 fresh :=
  ⟨rfl, fun _ d hd => absurd hd (by simp [fresh, Deferreds.toList]),
    fun _ q hq => absurd hq (by simp [fresh]), fun _ _ => rfl⟩

theorem Bounded.run {cs : List Step} (hrun : steps depth fresh cs = .ok s) : Bounded s.count s := by
  have hstep : ∀ c s s', (∃ n, Bounded n s) → Lua.step depth s c = .ok s' → ∃ n, Bounded n s' :=
    fun _ _ _ ⟨_, h⟩ hstep => h.step hstep
  obtain ⟨n, h⟩ := Run.keeps hstep ⟨0, Bounded.init⟩ hrun
  exact h.count ▸ h

end Runs

/-! ## The promise of a handler that throws -/

/-- `d` is pending, and nothing leads to it. -/
structure Unreached (d : Nat) (s : State) : Prop where
  pending : (s.promises d).state = .pending
  target : ∀ p, ∀ x ∈ (s.promises p).deferreds.toList, x.promise ≠ d
  slot : ∀ r, s.slots r ≠ .promise d

theorem Unreached.setPromise {d p : Nat} {s : State} {x : Promise} (h : Unreached d s)
    (hstate : p = d → x.state = .pending) (hx : ∀ y ∈ x.deferreds.toList, y.promise ≠ d) :
    Unreached d (s.setPromise p x) := by
  refine ⟨?_, fun q => ?_, h.slot⟩
  · by_cases hp : d = p
    · subst hp
      simpa [State.setPromise] using hstate rfl
    · simpa [State.setPromise, hp] using h.pending
  · by_cases hq : q = p
    · subst hq
      simpa [State.setPromise] using hx
    · simpa [State.setPromise, hq] using h.target q

theorem Unreached.stable (d : Nat) :
    Stable (fun x => x.promise ≠ d) (fun _ p => p ≠ d) (Unreached d) where
  hand := fun h hx => h.target _ _ hx
  target := fun _ hx => hx
  settle := fun {s p state} v h hp _ => by
    have hset : Unreached d (s.setPromise p { s.promises p with state := state, value := v }) :=
      h.setPromise (fun heq => absurd heq hp) (h.target p)
    exact ⟨hset.pending, hset.target, hset.slot⟩
  setDeferreds := fun h hds => h.setPromise (fun heq => heq ▸ h.pending) hds
  errerr := fun _ h => ⟨h.pending, h.target, h.slot⟩
  call := fun {s q x} _ h hq => by
    have hqd : q ≠ d := fun heq => hq (heq ▸ h.pending)
    have hsame := ref_same s (.handler s.calls.length) (.promise q)
    have hslot := ref_slots (o := .handler s.calls.length) (v := .promise q)
      (P := fun v => v ≠ .promise d) h.slot fun heq => hqd (Value.promise.inj heq)
    exact ⟨hsame.promises ▸ h.pending, hsame.promises ▸ h.target, hslot⟩
  throws := fun _ h => ⟨h.pending, h.target, h.slot⟩
  slot := fun {s r p} _ h _ hr heq => h.slot r (heq ▸ hr)
  use := fun {s o r} _ h _ => by
    have hsame := use_same s o r
    exact ⟨hsame.promises ▸ h.pending, hsame.promises ▸ h.target, use_slots s o r ▸ h.slot⟩
  unref := fun {s o r} _ h _ => by
    have hsame := unref_same s o r
    exact ⟨hsame.promises ▸ h.pending, hsame.promises ▸ h.target,
      unref_slots (P := fun v => v ≠ .promise d) h.slot (by simp)⟩

theorem newPromise_of_ne {s : State} {p : Nat} (hp : p ≠ s.count) :
    s.newPromise.2.promises p = s.promises p := Function.update_of_ne hp ..

theorem newPromise_self (s : State) : s.newPromise.2.promises s.count =
    { state := .pending, value := .nil, deferreds := .zero, refs := none } := Function.update_self ..

theorem Bounded.unreached {s : State} (h : Bounded s.count s) :
    Unreached s.count s.newPromise.2 := by
  refine ⟨by rw [newPromise_self], fun p x hx => ?_, fun r hr => Nat.lt_irrefl _ (h.slot r _ hr)⟩
  by_cases hp : p = s.count
  · rw [hp, newPromise_self] at hx
    simp [Deferreds.toList] at hx
  · rw [newPromise_of_ne hp] at hx
    exact Nat.ne_of_lt (h.target p x hx)

/-- A handler that throws leaves its promise pending. -/
theorem Unreached.handleResolved {m d q : Nat} {s : State} {x : Deferred} {fn : Fn} {e : Value}
    (h : Unreached d s) (hq : (s.promises q).state ≠ .pending)
    (hfn : x.selected (s.promises q).state = some fn) (hthrow : fn (s.promises q).value = .error e) :
    (handleResolved m q (some x) s).Holds (Unreached d) := by
  cases m with
  | zero =>
      rw [Lua.handleResolved]
      trivial
  | succ m =>
      have hstable := Unreached.stable d
      have hcall : MayCall fun y : Deferred => y.promise ≠ d :=
        ⟨{ onFulfilled := some fn, onRejected := some fn, promise := d + 1 }, .resolved, by simp,
          by simp [Deferred.selected]⟩
      have hthrown := hstable.throws hcall (hstable.call (d := x) hcall h hq)
      rw [Lua.handleResolved]
      dsimp only
      rw [hfn]
      dsimp only
      rw [hthrow]
      dsimp only
      split
      · exact hstable.errerr false hthrown
      · refine ((hstable.keeps m).errorHandle s.calls.length (s.callHandler q x).1 e _ hcall
          (hstable.errerr true hthrown) (Nat.succ_ne_zero _)).andThen (fun _ h' => h'.1) ?_
        exact fun _ s' h' => hstable.errerr false h'.1

theorem thennext_throws {depth p : Nat} {s : State} {f g : Option Fn} {fn : Fn} {e : Value}
    (h : Bounded s.count s) (hp : p < s.count)
    (hsettled : (s.promises p).state = .resolved ∨ (s.promises p).state = .rejected)
    (hfn : (if (s.promises p).state = .resolved then f else g) = some fn)
    (hthrow : fn (s.promises p).value = .error e) :
    (thennext depth p f g s).Holds (Unreached s.count) := by
  have hsame := newPromise_of_ne (Nat.ne_of_lt hp)
  have hstate : (s.promises p).state ≠ .resolving ∧ (s.promises p).state ≠ .pending := by
    rcases hsettled with hsettled | hsettled <;> simp [hsettled]
  rw [thennext]
  refine Ret.Holds.andThen (P := Unreached s.count) ?_ (fun _ h' => h') fun _ _ h' => h'
  cases depth with
  | zero =>
      rw [handle]
      trivial
  | succ n =>
      rw [handle, follow_settled (hsame.symm ▸ hstate.1)]
      dsimp only
      rw [if_neg (hsame.symm ▸ hstate.2)]
      refine Ret.Holds.andThen (P := Unreached s.count) ?_ (fun _ h' => h') fun _ _ h' => h'
      refine @Unreached.handleResolved _ _ _ _ _ fn e h.unreached (hsame.symm ▸ hstate.2) ?_ ?_
      · show Deferred.selected _ (s.newPromise.2.promises p).state = _
        rw [hsame]
        exact hfn
      · show fn (s.newPromise.2.promises p).value = _
        rw [hsame]
        exact hthrow

/-- What a handler that throws should do: its own promise is rejected, and the promise it was put on
    stays as it was. -/
def ErrorStays (depth p : Nat) (f g : Option Fn) (s : State) : Prop :=
  ∃ v s', thennext depth p f g s = .ret v s' ∧ (s'.promises s.count).state = .rejected ∧
    (s'.promises p).state = (s.promises p).state ∧ (s'.promises p).value = (s.promises p).value

/-- In no reachable state does an error in a handler reject the promise that `next` has returned. -/
theorem error_never_stays {depth p : Nat} {cs : List Step} {s : State} {f g : Option Fn} {fn : Fn}
    {e : Value} (hrun : steps depth fresh cs = .ok s) (hp : p < s.count)
    (hsettled : (s.promises p).state = .resolved ∨ (s.promises p).state = .rejected)
    (hfn : (if (s.promises p).state = .resolved then f else g) = some fn)
    (hthrow : fn (s.promises p).value = .error e) : ¬ ErrorStays depth p f g s := by
  rintro ⟨v, s', hnext, hrejected, -⟩
  have h : (thennext depth p f g s).Holds (Unreached s.count) :=
    thennext_throws (Bounded.run hrun) hp hsettled hfn hthrow
  rw [hnext] at h
  rw [h.pending] at hrejected
  cases hrejected

theorem error_never_stays_resolved : ∃ s, steps 9 fresh [.new, .resolve 0 (.num 5)] = .ok s ∧
    ¬ ErrorStays 9 0 (some fun v => .error v) none s := by
  obtain ⟨s, hrun, hcount, hstate⟩ : ∃ s, steps 9 fresh [.new, .resolve 0 (.num 5)] = .ok s ∧
      0 < s.count ∧ (s.promises 0).state = .resolved := ⟨_, rfl, by decide, rfl⟩
  exact ⟨s, hrun, error_never_stays hrun hcount (.inl hstate) (if_pos hstate) rfl⟩

/-- The promise that `next` returns for a handler that throws stays pending. -/
theorem error_lost : ¬ ∀ depth cs s p f g fn e, 9 ≤ depth → steps depth fresh cs = .ok s → p < s.count →
    ((s.promises p).state = .resolved ∨ (s.promises p).state = .rejected) →
    (if (s.promises p).state = .resolved then f else g) = some fn →
    fn (s.promises p).value = .error e → ErrorStays depth p f g s := by
  intro hall
  let cs : List Step := [.new, .resolve 0 (.num 5)]
  have hend : (steps 9 fresh cs).map (fun s => (s.count, (s.promises 0).state, (s.promises 0).value,
      (thennext 9 0 (some fun v => .error v) none s).look fun s' => (s'.promises 1).state)) =
      .ok (1, .resolved, .num 5, some .pending) := by decide +kernel
  obtain ⟨s, hrun, hs⟩ := map_eq_ok.1 hend
  simp only [Prod.mk.injEq] at hs
  obtain ⟨hcount, hstate, hvalue, hnext⟩ := hs
  obtain ⟨v, s', hret, hrejected, -⟩ := hall 9 cs s 0 (some fun v => .error v) none
    (fun v => .error v) (.num 5) (Nat.le_refl 9) hrun (by rw [hcount]; decide) (.inl hstate)
    (if_pos hstate) (by rw [hvalue])
  rw [hret, Ret.look] at hnext
  rw [hcount, Option.some.inj hnext] at hrejected
  cases hrejected

end Yaos.Lua
