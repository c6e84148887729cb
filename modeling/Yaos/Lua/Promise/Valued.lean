import Yaos.Lua.Promise.Adoption

set_option autoImplicit false

/-! # Properties of the promises that last

A property that each of the changes to a promise keeps holds after every call. Two of them: a promise that
stands for another has that one as its value, and a promise that has settled stays so, with the handlers it
has. -/

namespace Yaos.Lua

/-! ## What the calls keep -/

section Keeps

variable {s s' : State}

/-- Nothing is asked of the handlers and of the promises. -/
theorem stable_true : Stable (fun _ => True) (fun _ _ => True) fun _ => True where
  hand := fun _ _ => trivial
  target := fun _ _ => trivial
  settle := fun _ _ _ _ => trivial
  setDeferreds := fun _ _ => trivial
  errerr := fun _ _ => trivial
  call := fun _ _ _ => trivial
  throws := fun _ _ => trivial
  slot := fun _ _ _ _ => trivial
  use := fun _ _ _ => trivial
  unref := fun _ _ _ => trivial

/-- A property of the promises that nothing takes away. -/
abbrev Lasting (I : State → Prop) : Prop := Closed (fun _ => True) I (fun _ _ _ => True) True

theorem Lasting.handle {I : State → Prop} (h : Lasting I) {n p : Nat} {d : Option Deferred} (hI : I s) :
    (Lua.handle n p d s).Holds I :=
  ((Closed.sound stable_true h n).handle p d s trivial hI (fun _ _ => trivial) fun _ _ _ _ => trivial).holds

theorem Lasting.reject {I : State → Prop} (h : Lasting I) {n : Nat} {self v : Value} (hI : I s) :
    (Lua.reject n self v s).Holds I := by
  by_cases hself : ∃ p, self = .promise p
  · obtain ⟨p, rfl⟩ := hself
    exact ((Closed.sound stable_true h n).reject p v s trivial hI trivial fun _ _ _ _ => trivial).holds
  · exact reject_other (fun p hp => hself ⟨p, hp⟩) hI

theorem Lasting.resolve {I : State → Prop} (h : Lasting I) {n : Nat} {self v : Value} (hI : I s) :
    (Lua.resolve n self v s).Holds I := by
  by_cases hself : ∃ p, self = .promise p
  · obtain ⟨p, rfl⟩ := hself
    exact ((Closed.sound stable_true h n).resolve p v s trivial hI trivial fun _ _ _ _ => trivial).holds
  · exact resolve_other (fun p hp => hself ⟨p, hp⟩) hI

theorem Lasting.finaleLoop {I : State → Prop} (h : Lasting I) {n p : Nat} {ds : List Deferred} (hI : I s) :
    (finaleLoop (fun d s => Lua.handle n p (some d) s) ds s).Holds I := by
  induction ds generalizing s with
  | nil => exact hI
  | cons d ds ih =>
      rw [Lua.finaleLoop]
      refine (h.handle hI).andThen (fun _ h' => h') fun extra s' h' => ?_
      split
      · exact ih h'
      · exact h'

/-- A promise that stands for another has that one as its value. -/
def Valued (s : State) : Prop :=
  ∀ p, (s.promises p).state = .resolving → ∃ q, (s.promises p).value = .promise q

theorem Valued.congr (hsame : s'.promises = s.promises) (h : Valued s) : Valued s' := by
  intro p
  rw [hsame]
  exact h p

theorem Valued.setPromise {p : Nat} {x : Promise} (h : Valued s)
    (hx : x.state = .resolving → ∃ q, x.value = .promise q) : Valued (s.setPromise p x) := by
  intro r hr
  by_cases hrp : r = p
  · subst hrp
    simp only [State.setPromise, Function.update_self] at hr ⊢
    exact hx hr
  · simp only [State.setPromise, Function.update_of_ne hrp] at hr ⊢
    exact h r hr

theorem Valued.settle {p : Nat} {state : PState} {v : Value} (h : Valued s)
    (hx : state = .resolving → ∃ q, v = .promise q) : Valued (s.settle p state v) := by
  have hset : Valued (s.setPromise p { s.promises p with state := state, value := v }) := h.setPromise hx
  exact hset

theorem Valued.settleResolve {p : Nat} {v : Value} (h : Valued s) : Valued (s.settleResolve p v) := by
  refine h.settle fun hstate => ?_
  cases v with
  | promise q => exact ⟨q, rfl⟩
  | nil => cases hstate
  | num n => cases hstate
  | other n => cases hstate

theorem valued_lasting : Lasting Valued where
  congr := fun hsame h => h.congr hsame
  resolve := fun _ h _ => h.settleResolve
  reject := fun _ h => h.settle fun hstate => by cases hstate
  register := fun {s q d} h _ => by
    rw [State.register]
    split
    · exact h.setPromise (h q)
    · exact h.setPromise (h q)
    · exact h.setPromise (h q)
  forget := fun {s s' p d} _ _ h => h.setPromise (h p)
  follow := fun _ _ _ => trivial

/-- The promise has settled, and its handlers are such that `P`. -/
def SettledWith (p : Nat) (P : Deferreds → Prop) (s : State) : Prop :=
  (s.promises p).state ≠ .pending ∧ P (s.promises p).deferreds

section SettledWith

variable {P : Deferreds → Prop}

theorem SettledWith.setPromise {p q : Nat} {x : Promise} (h : SettledWith p P s)
    (hx : p = q → x.state ≠ .pending ∧ P x.deferreds) : SettledWith p P (s.setPromise q x) := by
  by_cases hpq : p = q
  · subst hpq
    simpa [SettledWith, State.setPromise] using hx rfl
  · simpa [SettledWith, State.setPromise, hpq] using h

/-- Handlers are put on pending promises only, and a single one is taken off at the end. -/
theorem settledWith_lasting (p : Nat) (hP : ∀ d, P (.one d) → P (.one none)) : Lasting (SettledWith p P) where
  congr := fun hsame h => by
    rw [SettledWith, hsame]
    exact h
  resolve := fun {s q v} _ h _ => by
    have hset : SettledWith p P (s.setPromise q
        { s.promises q with state := if v.isPromise then .resolving else .resolved, value := v }) := by
      refine h.setPromise fun hpq => ⟨?_, hpq ▸ h.2⟩
      dsimp only
      split <;> simp
    exact hset
  reject := fun {s q v} _ h => by
    have hset : SettledWith p P (s.setPromise q { s.promises q with state := .rejected, value := v }) :=
      h.setPromise fun hpq => ⟨by simp, hpq ▸ h.2⟩
    exact hset
  register := fun {s q d} h hpending => by
    -- `p` is settled, so the handler is put on another promise
    have hpq : p ≠ q := fun heq => h.1 (heq ▸ hpending)
    rw [State.register]
    split
    · exact h.setPromise fun heq => absurd heq hpq
    · exact h.setPromise fun heq => absurd heq hpq
    · exact h.setPromise fun heq => absurd heq hpq
  forget := fun {s s' q d} h hone h' => by
    refine h'.setPromise fun heq => ?_
    subst heq
    exact ⟨h'.1, hP d (hone ▸ h.2)⟩
  follow := fun _ _ _ => trivial

end SettledWith

end Keeps

/-! ## In every run -/

section Runs

variable {depth n m p : Nat} {s s' : State} {v : Value}

theorem Valued.calls {c c' : Call} (hcall : Calls n c s m c' s') (hs : Valued s) : Valued s' := by
  cases hcall with
  | resolve n p v s => exact hs.settleResolve
  | reject n p v s => exact hs.settle fun hx => by cases hx
  | one hd => exact hs
  | @table _ p _ _ before after d hds hrun =>
      have hbefore : (finaleLoop (fun d s => Lua.handle m p (some d) s) before s).Holds Valued :=
        valued_lasting.finaleLoop hs
      rw [hrun] at hbefore
      exact hbefore
  | handle hq hsettled => exact hs
  | passResolve hnone hstate => exact hs
  | passReject hnone hstate => exact hs
  | @returns _ q _ d f v hf hv => exact hs.congr (ref_same s (.handler s.calls.length) (.promise q)).promises
  | @throws _ q _ d f e hf he hfree =>
      exact hs.congr (ref_same s (.handler s.calls.length) (.promise q)).promises
  | errorHandle n call r e s => exact hs.congr (use_same s (.handler call) r).promises
  | @again _ call r e e' _ s₁ hraise hfree =>
      have hreject : (Lua.reject m (s.slots r) e (s.use (.handler call) r)).Holds Valued :=
        valued_lasting.reject (hs.congr (use_same s (.handler call) r).promises)
      rw [hraise] at hreject
      exact hreject

theorem Valued.newPromise (h : Valued s) : Valued s.newPromise.2 := by
  have hset : Valued (s.setPromise s.count { state := .pending, value := .nil, deferreds := .zero, refs := none }) :=
    h.setPromise fun hx => by cases hx
  exact hset

theorem Valued.startExecutor (h : Valued s) : Valued (s.startExecutor p) := by
  have hflag := h.congr (ref_same s (.flag p) (.num 0)).promises
  have hself := hflag.congr (ref_same (s.ref (.flag p) (.num 0)).2 (.self p) (.promise p)).promises
  have hset := hself.setPromise (p := p) (x := { (((s.ref (.flag p) (.num 0)).2.ref (.self p)
    (.promise p)).2.promises p) with refs := some ((s.ref (.flag p) (.num 0)).1,
      ((s.ref (.flag p) (.num 0)).2.ref (.self p) (.promise p)).1) }) (hself p)
  exact hset

theorem Valued.executorThrows (h : Valued s) : Valued (s.executorThrows p) := by
  rw [State.executorThrows]
  split
  · exact h
  · dsimp only
    split
    · exact (h.congr (use_same ..).promises).congr (rawseti_same ..).promises
    · exact h.congr (use_same ..).promises

theorem Valued.myResolve (h : Valued s) : (myResolve depth p v s).Holds Valued := by
  rw [Lua.myResolve]
  cases hrefs : (s.promises p).refs with
  | none => exact h
  | some refs =>
      obtain ⟨index, self⟩ := refs
      have hdone : ∀ r : Ret Unit, r.Holds Valued →
          (r.andThen fun _ s => .ret () ((s.unref (.flag p) index).unref (.self p) self)).Holds Valued := by
        intro r hr
        refine hr.andThen (fun _ h' => h') fun _ t h' => ?_
        exact (h'.congr (unref_same t (.flag p) index).promises).congr (unref_same ..).promises
      dsimp only
      split
      case isTrue => exact hdone _ (h.congr (use_same s (.flag p) index).promises)
      case isFalse => exact hdone _ (valued_lasting.resolve (h.congr (started_promises s p index self)))

theorem Valued.myReject (h : Valued s) : (myReject depth p v s).Holds Valued := by
  rw [Lua.myReject]
  cases hrefs : (s.promises p).refs with
  | none => exact h
  | some refs =>
      obtain ⟨index, self⟩ := refs
      dsimp only
      split
      case isTrue => exact h.congr (use_same s (.flag p) index).promises
      case isFalse => exact valued_lasting.reject (h.congr (started_promises s p index self))

theorem Valued.thennext {f g : Option Fn} (h : Valued s) : (thennext depth p f g s).Holds Valued := by
  rw [Lua.thennext]
  exact (valued_lasting.handle h.newPromise).andThen (fun _ h' => h') fun _ _ h' => h'

theorem Valued.step {c : Step} (h : Valued s) (hrun : Lua.step depth s c = .ok s') : Valued s' := by
  cases step_effect hrun with
  | refused => exact h
  | new => exact h.newPromise.startExecutor
  | plain => exact h.newPromise
  | leave => exact h.congr rfl
  | @throw p rest hrunning =>
      have hs := h.executorThrows (p := p)
      exact hs.congr rfl
  | resolve hv hrefs hcall =>
      have hs := h.myResolve.of_caught hcall
      exact hs.congr rfl
  | reject hv hcall => exact h.myReject.of_caught hcall
  | next hp hcall => exact h.thennext.of_caught hcall
  | ref hv => exact h.congr (ref_same ..).promises
  | unref hr => exact h.congr (unref_same ..).promises

theorem Valued.run {cs : List Step} (hrun : steps depth fresh cs = .ok s) : Valued s := by
  have hfresh : Valued fresh := fun p hp => by cases hp
  exact Run.keeps (fun _ _ _ h hstep => h.step hstep) hfresh hrun

end Runs

end Yaos.Lua
