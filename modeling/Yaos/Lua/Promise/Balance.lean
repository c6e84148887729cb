import Yaos.Lib.Run
import Yaos.Lua.Promise.Handlers
import Yaos.Lua.Promise.Passing
import Yaos.Lua.Promise.Registry

set_option autoImplicit false

/-! # The slots of the registry are given back

Only `my_resolve` gives the slots of the callbacks back, each time it is called, and only `error_handle`
gives back the slot that a handler has. A run in which no callback is called after `my_resolve`, none but
`my_resolve` settles its promise, and no handler returns gives every slot back once. -/

namespace Yaos.Lua

/-- No slot was used after it was given back, no promise that has settled has a slot, and no handler has
    one. -/
structure Balanced (s : State) : Prop where
  misuses : s.misuses = 0
  callbacks : ∀ r p, s.owner r = some (.flag p) ∨ s.owner r = some (.self p) →
    (s.promises p).state = .pending
  handlers : ∀ r call, s.owner r ≠ some (.handler call)

/-- The callbacks have their slots until `my_resolve` is called. -/
structure Slots (s : State) : Prop where
  held : ∃ free, Held s free
  misuses : s.misuses = 0
  live : ∀ p i j, (s.promises p).refs = some (i, j) → s.called p = false →
    s.owner i = some (.flag p) ∧ s.owner j = some (.self p) ∧ s.slots j = .promise p
  flags : ∀ r p, s.owner r = some (.flag p) → s.called p = false ∧ ∃ j, (s.promises p).refs = some (r, j)
  selves : ∀ r p, s.owner r = some (.self p) → s.called p = false ∧ ∃ i, (s.promises p).refs = some (i, r)
  handlers : ∀ r call, s.owner r ≠ some (.handler call)

section Slots

variable {s s' : State} {p i j r : Nat} {o : Owner} {v : Value}

/-- The slots and what they are for have not changed. -/
theorem Slots.congr (h : Slots s) (hslots : s'.slots = s.slots) (hlen : s'.len = s.len)
    (howner : s'.owner = s.owner) (hmisuses : s'.misuses = s.misuses) (hcalled : s'.called = s.called)
    (hrefs : ∀ x, (s'.promises x).refs = (s.promises x).refs) : Slots s' := by
  obtain ⟨free, hheld⟩ := h.held
  refine ⟨⟨free, ?_, ?_, ?_⟩, hmisuses.trans h.misuses, fun p i j hp hfalse => ?_, fun r p hr => ?_,
    fun r p hr => ?_, howner ▸ h.handlers⟩
  · rw [hslots]
    exact hheld.chain
  · rw [hlen, howner]
    exact hheld.mem
  · rw [hlen, howner]
    exact hheld.owned
  · rw [howner, hslots]
    exact h.live p i j (hrefs p ▸ hp) (hcalled ▸ hfalse)
  · rw [hcalled, hrefs]
    exact h.flags r p (howner ▸ hr)
  · rw [hcalled, hrefs]
    exact h.selves r p (howner ▸ hr)

theorem Untouched.slotsKept (h : Untouched s s') (hs : Slots s) : Slots s' :=
  hs.congr h.slots h.len h.owner h.misuses h.called h.refs

/-- Code that has nothing to do with promises takes a slot. -/
theorem Slots.take (h : Slots s) (v : Value) : Slots (s.ref .foreign v).2 := by
  obtain ⟨free, hheld⟩ := h.held
  obtain ⟨hheld', hnew, howner, -, hothers, hmisuses⟩ := hheld.ref .foreign v
  have hsame := ref_same s .foreign v
  have hold : ∀ t o, o ≠ .foreign → (s.ref .foreign v).2.owner t = some o → s.owner t = some o := by
    intro t o ho ht
    rw [howner] at ht
    by_cases htr : t = (s.ref .foreign v).1
    · rw [htr, Function.update_self] at ht
      exact absurd (Option.some.inj ht).symm ho
    · rwa [Function.update_of_ne htr] at ht
  have hkeep : ∀ t o, s.owner t = some o → (s.ref .foreign v).2.owner t = some o := by
    intro t o ht
    have htr : t ≠ (s.ref .foreign v).1 := fun heq => by
      rw [heq, hnew] at ht
      cases ht
    rw [howner, Function.update_of_ne htr, ht]
  refine ⟨hheld', hmisuses.trans h.misuses, fun p i j hp hfalse => ?_, fun r p hr => ?_, fun r p hr => ?_,
    fun r call hr => h.handlers r call (hold r _ (by simp) hr)⟩
  · obtain ⟨hi, hj, hslot⟩ := h.live p i j (hsame.promises ▸ hp) (hsame.called ▸ hfalse)
    exact ⟨hkeep i _ hi, hkeep j _ hj, (hothers j (by simp [hj])).trans hslot⟩
  · rw [hsame.promises, hsame.called]
    exact h.flags r p (hold r _ (by simp) hr)
  · rw [hsame.promises, hsame.called]
    exact h.selves r p (hold r _ (by simp) hr)

/-- Such a slot is given back. -/
theorem Slots.give (h : Slots s) (hr : s.owner r = some .foreign) : Slots (s.unref .foreign r) := by
  obtain ⟨free, hheld⟩ := h.held
  obtain ⟨hheld', howner, hslots, hmisuses⟩ := hheld.unref hr
  have hsame := unref_same s .foreign r
  have hold : ∀ t o, (s.unref .foreign r).owner t = some o → s.owner t = some o := by
    intro t o ht
    rw [howner] at ht
    by_cases htr : t = r
    · rw [htr, Function.update_self] at ht
      cases ht
    · rwa [Function.update_of_ne htr] at ht
  have hne : ∀ t o, o ≠ .foreign → s.owner t = some o → t ≠ r := by
    rintro t o ho ht rfl
    exact ho (Option.some.inj (ht.symm.trans hr))
  refine ⟨⟨_, hheld'⟩, hmisuses.trans h.misuses, fun p i j hp hfalse => ?_, fun t p ht => ?_,
    fun t p ht => ?_, fun t call ht => h.handlers t call (hold t _ ht)⟩
  · obtain ⟨hi, hj, hslot⟩ := h.live p i j (hsame.promises ▸ hp) (hsame.called ▸ hfalse)
    have hir := hne i _ (by simp) hi
    have hjr := hne j _ (by simp) hj
    rw [howner, Function.update_of_ne hir, Function.update_of_ne hjr, hslots j (by simp [hj]) hjr]
    exact ⟨hi, hj, hslot⟩
  · rw [hsame.promises, hsame.called]
    exact h.flags t p (hold t _ ht)
  · rw [hsame.promises, hsame.called]
    exact h.selves t p (hold t _ ht)

/-- The slots of two callbacks are different, and no other callbacks have them. -/
theorem Slots.ne (h : Slots s) {q i' j' : Nat} (hp : (s.promises p).refs = some (i, j))
    (hpc : s.called p = false) (hq : (s.promises q).refs = some (i', j')) (hqc : s.called q = false) :
    i ≠ j' ∧ (p ≠ q → i ≠ i' ∧ j ≠ j') := by
  obtain ⟨hi, hj, -⟩ := h.live p i j hp hpc
  obtain ⟨hi', hj', -⟩ := h.live q i' j' hq hqc
  refine ⟨?_, fun hne => ⟨?_, ?_⟩⟩
  · rintro rfl
    rw [hi] at hj'
    cases hj'
  · rintro rfl
    exact hne (Owner.flag.inj (Option.some.inj (hi.symm.trans hi')))
  · rintro rfl
    exact hne (Owner.self.inj (Option.some.inj (hj.symm.trans hj')))

/-- The `done` flag is set. -/
theorem Slots.setDone (h : Slots s) (hp : (s.promises p).refs = some (i, j)) (hpc : s.called p = false) :
    Slots (s.rawseti (.flag p) i (.num 1)) := by
  obtain ⟨free, hheld⟩ := h.held
  obtain ⟨hheld', howner, hslots, hmisuses⟩ := hheld.rawseti (h.live p i j hp hpc).1 (.num 1)
  have hsame := rawseti_same s (.flag p) i (.num 1)
  refine ⟨⟨free, hheld'⟩, hmisuses.trans h.misuses, fun q i' j' hq hfalse => ?_, fun r q hr => ?_,
    fun r q hr => ?_, howner ▸ h.handlers⟩
  · rw [hsame.promises] at hq
    rw [hsame.called] at hfalse
    rw [howner, hslots, Function.update_of_ne (h.ne hp hpc hq hfalse).1.symm]
    exact h.live q i' j' hq hfalse
  · rw [hsame.promises, hsame.called]
    exact h.flags r q (howner ▸ hr)
  · rw [hsame.promises, hsame.called]
    exact h.selves r q (howner ▸ hr)

/-- `my_resolve` gives the slots of both callbacks back. -/
theorem Slots.release (h : Slots s) (hp : (s.promises p).refs = some (i, j)) (hpc : s.called p = false) :
    Slots (((s.unref (.flag p) i).unref (.self p) j).markCalled p) := by
  obtain ⟨hi, hj, -⟩ := h.live p i j hp hpc
  have hij : i ≠ j := (h.ne hp hpc hp hpc).1
  obtain ⟨free, hheld⟩ := h.held
  obtain ⟨hheld₁, howner₁, hslots₁, hmisuses₁⟩ := hheld.unref hi
  have hj₁ : (s.unref (.flag p) i).owner j = some (.self p) := by
    rw [howner₁, Function.update_of_ne hij.symm, hj]
  obtain ⟨hheld₂, howner₂, hslots₂, hmisuses₂⟩ := hheld₁.unref hj₁
  have hsame₁ := unref_same s (.flag p) i
  have hsame₂ := unref_same (s.unref (.flag p) i) (.self p) j
  generalize (s.unref (.flag p) i).unref (.self p) j = t at *
  have hpromises : t.promises = s.promises := hsame₂.promises.trans hsame₁.promises
  have hold : ∀ r o, t.owner r = some o → r ≠ i ∧ r ≠ j ∧ s.owner r = some o := by
    intro r o hr
    rw [howner₂, howner₁] at hr
    by_cases hrj : r = j
    · rw [hrj, Function.update_self] at hr
      cases hr
    · rw [Function.update_of_ne hrj] at hr
      by_cases hri : r = i
      · rw [hri, Function.update_self] at hr
        cases hr
      · rw [Function.update_of_ne hri] at hr
        exact ⟨hri, hrj, hr⟩
  have hcalled : ∀ q, q ≠ p → (t.markCalled p).called q = s.called q := fun q hq => by
    show Function.update t.called p true q = s.called q
    rw [Function.update_of_ne hq, hsame₂.called, hsame₁.called]
  have hself : (t.markCalled p).called p = true := Function.update_self ..
  refine ⟨⟨_, hheld₂.chain, hheld₂.mem, hheld₂.owned⟩, hmisuses₂.trans (hmisuses₁.trans h.misuses),
    fun q i' j' hq hfalse => ?_, fun r q hr => ?_, fun r q hr => ?_, fun r call hr => ?_⟩
  · have hqp : q ≠ p := fun heq => by
      rw [heq, hself] at hfalse
      cases hfalse
    rw [hcalled q hqp] at hfalse
    have hq : (t.promises q).refs = some (i', j') := hq
    rw [hpromises] at hq
    obtain ⟨hi', hj', hslot⟩ := h.live q i' j' hq hfalse
    obtain ⟨hne₁, hne₂⟩ := h.ne hp hpc hq hfalse
    obtain ⟨hne₃, hne₄⟩ := hne₂ hqp.symm
    have hne₅ := (h.ne hq hfalse hp hpc).1
    show t.owner i' = _ ∧ t.owner j' = _ ∧ t.slots j' = _
    rw [howner₂, Function.update_of_ne hne₅, Function.update_of_ne hne₄.symm, howner₁,
      Function.update_of_ne hne₃.symm, Function.update_of_ne hne₁.symm]
    refine ⟨hi', hj', ?_⟩
    have hj'₁ : (s.unref (.flag p) i).owner j' ≠ none := by
      rw [howner₁, Function.update_of_ne hne₁.symm, hj']
      simp
    rw [hslots₂ j' hj'₁ hne₄.symm, hslots₁ j' (by simp [hj']) hne₁.symm, hslot]
  · obtain ⟨hri, -, hr⟩ := hold r _ hr
    obtain ⟨hfalse, j', hq⟩ := h.flags r q hr
    have hqp : q ≠ p := fun heq => by
      rw [heq, hp] at hq
      exact hri (Prod.mk.inj (Option.some.inj hq)).1.symm
    exact ⟨(hcalled q hqp).trans hfalse, j', hpromises ▸ hq⟩
  · obtain ⟨-, hrj, hr⟩ := hold r _ hr
    obtain ⟨hfalse, i', hq⟩ := h.selves r q hr
    have hqp : q ≠ p := fun heq => by
      rw [heq, hp] at hq
      exact hrj (Prod.mk.inj (Option.some.inj hq)).2.symm
    exact ⟨(hcalled q hqp).trans hfalse, i', hpromises ▸ hq⟩
  · exact h.handlers r call (hold r _ hr).2.2

/-- `doResolve` takes two slots for the callbacks of `p`. -/
theorem Slots.begin (h : Slots s) (hrefs : (s.promises p).refs = none) (hpc : s.called p = false) :
    Slots (s.startExecutor p) := by
  obtain ⟨free, hheld⟩ := h.held
  obtain ⟨⟨free₁, hheld₁⟩, hnew₁, howner₁, -, hothers₁, hmisuses₁⟩ := hheld.ref (.flag p) (.num 0)
  have hsame₁ := ref_same s (.flag p) (.num 0)
  rw [State.startExecutor]
  generalize hi : (s.ref (.flag p) (.num 0)).1 = i at *
  generalize hs₁ : (s.ref (.flag p) (.num 0)).2 = s₁ at *
  obtain ⟨⟨free₂, hheld₂⟩, hnew₂, howner₂, hvalue₂, hothers₂, hmisuses₂⟩ := hheld₁.ref (.self p) (.promise p)
  have hsame₂ := ref_same s₁ (.self p) (.promise p)
  dsimp only
  rw [hi, hs₁]
  generalize (s₁.ref (.self p) (.promise p)).1 = j at *
  generalize (s₁.ref (.self p) (.promise p)).2 = s₂ at *
  have hpromises : s₂.promises = s.promises := hsame₂.promises.trans hsame₁.promises
  have hcalled : s₂.called = s.called := hsame₂.called.trans hsame₁.called
  have hself : (s₂.setPromise p { s₂.promises p with refs := some (i, j) }).promises p =
      { s.promises p with refs := some (i, j) } := by
    rw [← hpromises]
    exact Function.update_self ..
  have hother : ∀ q, q ≠ p →
      (s₂.setPromise p { s₂.promises p with refs := some (i, j) }).promises q = s.promises q := by
    intro q hq
    rw [← hpromises]
    exact Function.update_of_ne hq ..
  have hij : i ≠ j := fun heq => by
    rw [howner₁, ← heq, Function.update_self] at hnew₂
    cases hnew₂
  have howner : s₂.owner = Function.update (Function.update s.owner i (some (.flag p))) j (some (.self p)) := by
    rw [howner₂, howner₁]
  -- both slots were nobody's, so whoever held a slot still holds it with its value
  have hkeep : ∀ t o, s.owner t = some o → s₂.owner t = some o ∧ s₂.slots t = s.slots t := by
    intro t o ht
    have hti : t ≠ i := fun heq => by
      rw [heq, hnew₁] at ht
      cases ht
    have ht₁ : s₁.owner t = some o := by rw [howner₁, Function.update_of_ne hti, ht]
    have htj : t ≠ j := fun heq => by
      rw [heq, hnew₂] at ht₁
      cases ht₁
    refine ⟨by rw [howner₂, Function.update_of_ne htj, ht₁], ?_⟩
    rw [hothers₂ t (by simp [ht₁]), hothers₁ t (by simp [ht])]
  have hold : ∀ r o, s₂.owner r = some o →
      r = i ∧ o = .flag p ∨ r = j ∧ o = .self p ∨ s.owner r = some o := by
    intro r o hr
    rw [howner] at hr
    by_cases hrj : r = j
    · rw [hrj, Function.update_self] at hr
      exact .inr (.inl ⟨hrj, (Option.some.inj hr).symm⟩)
    · rw [Function.update_of_ne hrj] at hr
      by_cases hri : r = i
      · rw [hri, Function.update_self] at hr
        exact .inl ⟨hri, (Option.some.inj hr).symm⟩
      · rw [Function.update_of_ne hri] at hr
        exact .inr (.inr hr)
  refine ⟨⟨free₂, hheld₂.chain, hheld₂.mem, hheld₂.owned⟩, hmisuses₂.trans (hmisuses₁.trans h.misuses),
    fun q i' j' hq hfalse => ?_, fun r q hr => ?_, fun r q hr => ?_, fun r call hr => ?_⟩
  · show s₂.owner i' = _ ∧ s₂.owner j' = _ ∧ s₂.slots j' = _
    by_cases hqp : q = p
    · subst hqp
      have hq : ((s₂.setPromise q { s₂.promises q with refs := some (i, j) }).promises q).refs = _ := hq
      rw [hself] at hq
      obtain ⟨rfl, rfl⟩ := Prod.mk.inj (Option.some.inj hq)
      rw [howner, Function.update_of_ne hij, Function.update_self, Function.update_self]
      exact ⟨rfl, rfl, hvalue₂⟩
    · have hq : ((s₂.setPromise p { s₂.promises p with refs := some (i, j) }).promises q).refs = _ := hq
      rw [hother q hqp] at hq
      have hfalse : s₂.called q = false := hfalse
      rw [hcalled] at hfalse
      obtain ⟨hi', hj', hslot⟩ := h.live q i' j' hq hfalse
      exact ⟨(hkeep i' _ hi').1, (hkeep j' _ hj').1, (hkeep j' _ hj').2.trans hslot⟩
  · show s₂.called q = false ∧
      ∃ j', ((s₂.setPromise p { s₂.promises p with refs := some (i, j) }).promises q).refs = some (r, j')
    rcases hold r _ hr with ⟨rfl, hq⟩ | ⟨-, hq⟩ | hr
    · rw [Owner.flag.inj hq, hself, hcalled]
      exact ⟨hpc, j, rfl⟩
    · cases hq
    · obtain ⟨hfalse, j', hq⟩ := h.flags r q hr
      rw [hcalled, hother q fun heq => by rw [heq, hrefs] at hq; cases hq]
      exact ⟨hfalse, j', hq⟩
  · show s₂.called q = false ∧
      ∃ i', ((s₂.setPromise p { s₂.promises p with refs := some (i, j) }).promises q).refs = some (i', r)
    rcases hold r _ hr with ⟨-, hq⟩ | ⟨rfl, hq⟩ | hr
    · cases hq
    · rw [Owner.self.inj hq, hself, hcalled]
      exact ⟨hpc, i, rfl⟩
    · obtain ⟨hfalse, i', hq⟩ := h.selves r q hr
      rw [hcalled, hother q fun heq => by rw [heq, hrefs] at hq; cases hq]
      exact ⟨hfalse, i', hq⟩
  · rcases hold r _ hr with ⟨-, hq⟩ | ⟨-, hq⟩ | hr
    · cases hq
    · cases hq
    · exact h.handlers r call hr

end Slots

/-! ## Which steps keep the balance -/

/-- The `done` flag of `p` is set. -/
def State.Done (s : State) (p : Nat) : Prop :=
  ∃ i j, (s.promises p).refs = some (i, j) ∧ (s.slots i).toInteger ≠ 0

/-- When `p` is resolved with `v`, no handler is called, and the handlers that have to wait on fit on the
    promise they wait for. -/
def State.Passing (s : State) (p : Nat) (v : Value) : Prop :=
  let s' := s.settle p (if v.isPromise then .resolving else .resolved) v
  ∀ r, s'.follow (s'.count + 1) p = some r →
    if (s'.promises r).state = .pending then Roomy s' p r else Passes s' (s'.promises r).state p

/-- A handler that is put on a settled promise throws, and there are no other handlers. -/
def State.Throwing (s : State) (p : Nat) (onFulfilled onRejected : Option Fn) : Prop :=
  let s' := s.newPromise.2
  ∀ q f, s'.follow (s'.count + 1) p = some q → (s'.promises q).state ≠ .pending →
    (if (s'.promises q).state = .resolved then onFulfilled else onRejected) = some f →
      (s'.promises q).deferreds = .zero ∧ ∃ e, f (s'.promises q).value = .error e

/-- The step gives back what it takes, and no slot twice. -/
def Step.Clean (s : State) : Step → Prop
  | .resolve p v => s.called p = false ∧ (s.Done p ∨ s.Passing p v)
  | .reject p _ => (s.promises p).refs = none ∨ s.called p = false ∧ s.Done p
  | .throw => ∀ p rest, s.running = p :: rest → s.called p = false
  | .next p f g => s.Throwing p f g
  | _ => True

/-- The invariant of clean runs. -/
structure Balance (s : State) : Prop where
  slots : Slots s
  forest : Forest s []
  errerr : s.errerr = false
  uncalled : ∀ p, (s.promises p).refs ≠ none → s.called p = false → (s.promises p).state = .pending
  unborn : ∀ p, s.count ≤ p → s.promises p = freshPromise ∧ s.called p = false

theorem Balance.balanced {s : State} (h : Balance s) : Balanced s := by
  refine ⟨h.slots.misuses, fun r p hr => ?_, h.slots.handlers⟩
  rcases hr with hr | hr
  · obtain ⟨hfalse, j, hrefs⟩ := h.slots.flags r p hr
    exact h.uncalled p (by simp [hrefs]) hfalse
  · obtain ⟨hfalse, i, hrefs⟩ := h.slots.selves r p hr
    exact h.uncalled p (by simp [hrefs]) hfalse

section Steps

variable {s s' : State} {depth p i j : Nat} {v : Value}

theorem Balance.registry (h : Balance s) (hsame : SameButRegistry s s') (hslots : Slots s') :
    Balance s' := by
  refine ⟨hslots, h.forest.congr hsame.promises (Nat.le_of_eq hsame.count.symm), hsame.errerr.trans h.errerr,
    ?_, ?_⟩
  · rw [hsame.promises, hsame.called]
    exact h.uncalled
  · rw [hsame.promises, hsame.called, hsame.count]
    exact h.unborn

/-- A promise that exists has an unchanged record, and a new one a fresh one. -/
theorem Balance.newPromise_promises (h : Balance s) : s.newPromise.2.promises = s.promises := by
  have hnew := (h.unborn s.count (Nat.le_refl _)).1
  show Function.update s.promises s.count freshPromise = s.promises
  rw [← hnew, Function.update_eq_self]

theorem Balance.newPromise (h : Balance s) : Balance s.newPromise.2 := by
  have hpromises := h.newPromise_promises
  refine ⟨h.slots.congr rfl rfl rfl rfl rfl fun x => by rw [hpromises], h.forest.congr hpromises (Nat.le_succ _),
    h.errerr, ?_, fun q hq => ?_⟩
  · rw [hpromises]
    exact h.uncalled
  · rw [hpromises]
    exact h.unborn q (Nat.le_of_succ_le hq)

/-- The handler of a new promise has not run yet. -/
theorem Balance.newHandler (h : Balance s) (f g : Option Fn) :
    Forest s.newPromise.2 [{ onFulfilled := f, onRejected := g, promise := s.count }] := by
  have hnew := h.newPromise
  have hpromises := h.newPromise_promises
  have hfresh := (h.unborn s.count (Nat.le_refl _)).1
  have hold : ∀ x, ∀ d ∈ s.newPromise.2.waiting x, d.promise ≠ s.count := by
    intro x d hd
    have hwaiting : s.newPromise.2.waiting x = s.waiting x := by
      rw [State.waiting, State.waiting, hpromises]
    rw [hwaiting] at hd
    exact Nat.ne_of_lt (h.forest.target x d hd).exists_t
  refine ⟨hnew.forest.shaped, fun x d hd => ?_, fun x => ?_, hnew.forest.apart, hnew.forest.fits⟩
  · rcases List.mem_cons.1 hd with rfl | hd
    · exact ⟨by rw [hpromises, hfresh]; rfl, by rw [hpromises, hfresh]; rfl, Nat.lt_succ_self _⟩
    · exact hnew.forest.target x d hd
  · rw [List.cons_append, List.map_cons, List.nodup_cons]
    refine ⟨fun hmem => ?_, hnew.forest.nodup x⟩
    obtain ⟨d, hd, heq⟩ := List.mem_map.1 hmem
    exact hold x d hd heq

theorem startExecutor_same (s : State) (p : Nat) :
    ∃ i j, (s.startExecutor p).promises =
        Function.update s.promises p { s.promises p with refs := some (i, j) } ∧
      (s.startExecutor p).count = s.count ∧ (s.startExecutor p).errerr = s.errerr ∧
      (s.startExecutor p).called = s.called := by
  have hsame₁ := ref_same s (.flag p) (.num 0)
  have hsame₂ := ref_same (s.ref (.flag p) (.num 0)).2 (.self p) (.promise p)
  refine ⟨(s.ref (.flag p) (.num 0)).1, ((s.ref (.flag p) (.num 0)).2.ref (.self p) (.promise p)).1, ?_,
    hsame₂.count.trans hsame₁.count, hsame₂.errerr.trans hsame₁.errerr, hsame₂.called.trans hsame₁.called⟩
  rw [← hsame₁.promises, ← hsame₂.promises]
  rfl

/-- The callbacks of a promise are made. -/
theorem Balance.startExecutor (h : Balance s) (hp : p < s.count) (hrefs : (s.promises p).refs = none)
    (hpc : s.called p = false) (hpending : (s.promises p).state = .pending)
    (hfree : ∀ x, ∀ d ∈ s.waiting x, d.promise ≠ p) : Balance (s.startExecutor p) := by
  have hslots := h.slots.begin hrefs hpc
  obtain ⟨i, j, hpromises, hcount, herrerr, hcalled⟩ := startExecutor_same s p
  refine ⟨hslots, (h.forest.setRefs (i, j) (by simpa using hfree)).congr hpromises (Nat.le_of_eq hcount.symm),
    herrerr.trans h.errerr, fun q hq hfalse => ?_, fun q hq => ?_⟩
  · rw [hpromises] at hq ⊢
    by_cases hqp : q = p
    · rw [hqp, Function.update_self]
      exact hpending
    · rw [Function.update_of_ne hqp] at hq ⊢
      exact h.uncalled q hq (hcalled ▸ hfalse)
  · have hle : s.count ≤ q := hcount ▸ hq
    rw [hpromises, hcalled, Function.update_of_ne (Nat.ne_of_gt (Nat.lt_of_lt_of_le hp hle))]
    exact h.unborn q hle

theorem follow_congr {n : Nat} (h : s'.promises = s.promises) : s'.follow n p = s.follow n p := by
  induction n generalizing p with
  | zero => rfl
  | succ n ih =>
      rw [State.follow, State.follow, h]
      split
      · cases (s.promises p).value with
        | promise q => exact ih
        | nil => rfl
        | num k => rfl
        | other k => rfl
      · rfl

theorem Passes.congr {state : PState} {x : Nat} (h : Passes s state x) (hs : s'.promises = s.promises) :
    Passes s' state x := by
  induction h with
  | intro x hnil _ ih => exact ⟨x, hs ▸ hnil, hs ▸ ih⟩

theorem handle_hangs {n : Nat} {x : Option Deferred} {P : Nat → State → Prop}
    (h : s.follow (s.count + 1) p = none) : (handle n p x s).Comes P := by
  cases n with
  | zero =>
      rw [handle]
      trivial
  | succ n =>
      rw [handle, h]
      trivial

/-- A chain that never ends does no harm to a promise without handlers. -/
theorem finale_hangs {n : Nat} {rest : List Deferred} (h : s.follow (s.count + 1) p = none)
    (hforest : Forest s ((s.promises p).deferreds.toList ++ rest)) :
    (finale n p s).Comes fun _ t => Untouched s t ∧ Forest t rest := by
  cases n with
  | zero =>
      rw [finale]
      trivial
  | succ n =>
      rw [finale]
      cases hds : (s.promises p).deferreds with
      | zero =>
          rw [hds] at hforest
          exact ⟨.refl s, hforest⟩
      | one d => exact (handle_hangs (P := fun _ _ => False) h).andThen fun _ _ hfalse => hfalse.elim
      | table ds =>
          rw [hds] at hforest
          cases ds with
          | nil => exact ⟨.refl s, hforest⟩
          | cons d ds => exact (handle_hangs (P := fun _ _ => False) h).andThen fun _ _ hfalse => hfalse.elim

theorem State.Passing.congr (h : s.Passing p v) (hpromises : s'.promises = s.promises)
    (hcount : s'.count = s.count) : s'.Passing p v := by
  rw [State.Passing] at h ⊢
  generalize (if v.isPromise then PState.resolving else PState.resolved) = state at *
  have hsettle : (s'.settle p state v).promises = (s.settle p state v).promises := by
    rw [State.settle, State.settle, State.setPromise, State.setPromise, hpromises]
  have hcount' : (s'.settle p state v).count = (s.settle p state v).count := hcount
  intro r hr
  rw [follow_congr hsettle, hcount'] at hr
  have hr := h r hr
  rw [hsettle]
  split at hr
  case isTrue hpending =>
      rw [if_pos hpending, Roomy, hsettle]
      exact hr
  case isFalse hpending =>
      rw [if_neg hpending]
      exact hr.congr hsettle

/-- A promise with callbacks is settled by `my_resolve`. -/
theorem Balance.settle {n : Nat} (h : Balance s) (hp : p < s.count) (hrefs : (s.promises p).refs ≠ none)
    (hpc : s.called p = false) (hv : s.Exists v) (hpass : s.Passing p v) :
    (finale n p (s.settle p (if v.isPromise then .resolving else .resolved) v)).Comes fun _ t =>
      Untouched (s.settle p (if v.isPromise then .resolving else .resolved) v) t ∧ Forest t [] := by
  have hpending := h.uncalled p hrefs hpc
  have hshaped := h.forest.shaped p hpending
  rw [State.Passing] at hpass
  generalize hstate : (if v.isPromise then PState.resolving else PState.resolved) = state at *
  have hne : state ≠ .pending := by
    rw [← hstate]
    split <;> simp
  have hfits : Fits s state v := by
    refine ⟨fun heq => ?_, fun _ => hv⟩
    rw [heq] at hstate
    by_contra hprom
    rw [Bool.not_eq_false] at hprom
    rw [if_pos hprom] at hstate
    cases hstate
  have hself := settle_self s p state v
  have hforest : Forest (s.settle p state v) ((s.promises p).deferreds.toList ++ []) := by
    refine h.forest.settle hpending (fun x d hd heq => hrefs ?_) hne hfits
    exact heq ▸ (h.forest.target x d hd).refs
  have hds : ((s.settle p state v).promises p).deferreds = (s.promises p).deferreds := by rw [hself]
  have hp' : p < (s.settle p state v).count := hp
  have hstate' : ((s.settle p state v).promises p).state ≠ .pending := by
    rw [hself]
    exact hne
  rw [← hds] at hforest hshaped
  generalize s.settle p state v = t at *
  cases hfollow : t.follow (t.count + 1) p with
  | none => exact finale_hangs hfollow hforest
  | some r =>
      have hpass := hpass r hfollow
      obtain ⟨hr, hresolving⟩ := hforest.follow hp' hfollow
      split at hpass
      case isTrue hend =>
          rw [List.append_nil] at hforest
          exact finale_ending ⟨hfollow, hend, hr⟩ hp' hstate' hforest hshaped hpass
      case isFalse hend =>
          have hkind := PState.settled hend hresolving
          obtain ⟨_, hnil, hdown⟩ := hpass
          refine ((passesAt t (t.promises r).state n).finale t p r [] (.refl t) hforest hshaped hp'
            hstate' ⟨hfollow, rfl, hkind⟩ fun d hd => ⟨hnil d hd, hdown d hd⟩).mono ?_
          exact fun _ t' ht' => ⟨ht'.1.toUntouched, ht'.2⟩

theorem Balance.refs_lt (h : Balance s) (hrefs : (s.promises p).refs = some (i, j)) : p < s.count := by
  by_contra hle
  rw [(h.unborn p (Nat.le_of_not_lt hle)).1] at hrefs
  cases hrefs

/-- Both slots are given back when `my_resolve` comes back from a state in which only `p` may have
    settled. -/
theorem Balance.finish {t : State} (h : Balance s) (hrefs : (s.promises p).refs = some (i, j))
    (hpc : s.called p = false) (hslots : Slots t) (hforest : Forest t []) (herrerr : t.errerr = false)
    (hcalled : t.called = s.called) (hcount : t.count = s.count)
    (hrefs' : ∀ x, (t.promises x).refs = (s.promises x).refs)
    (hstate : ∀ x, x ≠ p → (s.promises x).refs ≠ none → (t.promises x).state = (s.promises x).state)
    (hunborn : ∀ x, s.count ≤ x → t.promises x = s.promises x) :
    Balance (((t.unref (.flag p) i).unref (.self p) j).markCalled p) := by
  have hrelease := hslots.release ((hrefs' p).trans hrefs) (hcalled ▸ hpc)
  have hsame₁ := unref_same t (.flag p) i
  have hsame₂ := unref_same (t.unref (.flag p) i) (.self p) j
  generalize (t.unref (.flag p) i).unref (.self p) j = u at *
  have hpromises : (u.markCalled p).promises = t.promises := hsame₂.promises.trans hsame₁.promises
  have hcount' : (u.markCalled p).count = s.count := hsame₂.count.trans (hsame₁.count.trans hcount)
  have hother : ∀ q, q ≠ p → (u.markCalled p).called q = s.called q := fun q hq => by
    show Function.update u.called p true q = s.called q
    rw [Function.update_of_ne hq, hsame₂.called, hsame₁.called, hcalled]
  refine ⟨hrelease, hforest.congr hpromises (Nat.le_of_eq (hcount'.trans hcount.symm).symm), ?_,
    fun q hq hfalse => ?_, fun q hq => ?_⟩
  · show u.errerr = false
    rw [hsame₂.errerr, hsame₁.errerr, herrerr]
  · have hqp : q ≠ p := by
      rintro rfl
      simp [State.markCalled] at hfalse
    rw [hpromises] at hq ⊢
    rw [hrefs'] at hq
    rw [hstate q hqp hq]
    exact h.uncalled q hq (hother q hqp ▸ hfalse)
  · have hle : s.count ≤ q := hcount' ▸ hq
    have hqp : q ≠ p := Nat.ne_of_gt (Nat.lt_of_lt_of_le (h.refs_lt hrefs) hle)
    rw [hpromises, hunborn q hle, hother q hqp]
    exact h.unborn q hle

theorem Balance.myResolve (h : Balance s) (hv : s.Exists v) (hrefs : (s.promises p).refs = some (i, j))
    (hpc : s.called p = false) (hclean : s.Done p ∨ s.Passing p v) :
    (myResolve depth p v s).Comes fun _ t => Balance (t.markCalled p) := by
  obtain ⟨hi, hj, hslot⟩ := h.slots.live p i j hrefs hpc
  rw [Lua.myResolve, hrefs]
  dsimp only
  rw [use_owned hi]
  split
  case isTrue =>
      exact h.finish hrefs hpc h.slots h.forest h.errerr rfl rfl (fun _ => rfl) (fun _ _ _ => rfl) fun _ _ => rfl
  case isFalse hzero =>
      have hpass : s.Passing p v := by
        rcases hclean with ⟨i', j', hrefs', hdone⟩ | hpass
        · obtain ⟨rfl, rfl⟩ := Prod.mk.inj (Option.some.inj (hrefs.symm.trans hrefs'))
          exact absurd hdone hzero
        · exact hpass
      obtain ⟨free, hheld⟩ := h.slots.held
      obtain ⟨-, howner, hslots, -⟩ := hheld.rawseti hi (.num 1)
      have hij := (h.slots.ne hrefs hpc hrefs hpc).1
      have hsame := rawseti_same s (.flag p) i (.num 1)
      have hset := h.slots.setDone hrefs hpc
      have hslot' : (s.rawseti (.flag p) i (.num 1)).slots j = .promise p := by
        rw [hslots, Function.update_of_ne hij.symm, hslot]
      rw [use_owned (howner.symm ▸ hj), hslot', State.aim, if_pos rfl]
      have hmark : Balance (s.rawseti (.flag p) i (.num 1)) := h.registry hsame hset
      generalize s.rawseti (.flag p) i (.num 1) = t at *
      cases depth with
      | zero =>
          rw [resolve]
          trivial
      | succ n =>
          rw [resolve]
          have hpt : p < t.count := hsame.count ▸ h.refs_lt hrefs
          have hpass' : t.Passing p v := hpass.congr hsame.promises hsame.count
          refine (hmark.settle hpt (by rw [hsame.promises, hrefs]; simp) (hsame.called ▸ hpc)
            (fun q hq => hsame.count ▸ hv q hq) hpass').andThen ?_
          rintro _ u ⟨hu, hforest⟩
          refine h.finish hrefs hpc (hu.slotsKept (hset.congr rfl rfl rfl rfl rfl (settle_refs t p _ v))) hforest
            (hu.errerr.trans hmark.errerr) (hu.called.trans hsame.called) (hu.count.trans hsame.count)
            (fun x => ?_) (fun x hx hxr => ?_) fun x hx => ?_
          · rw [hu.refs, settle_refs, hsame.promises]
          · rw [hu.state x (by rw [settle_refs, hsame.promises]; exact hxr), settle_ne hx, hsame.promises]
          · have hxt : t.count ≤ x := hsame.count ▸ hx
            rw [hu.unborn x hxt, settle_ne (Nat.ne_of_gt (Nat.lt_of_lt_of_le hpt hxt)), hsame.promises]

theorem Balance.executorThrows (h : Balance s) (hpc : s.called p = false) : Balance (s.executorThrows p) := by
  rw [State.executorThrows]
  cases hrefs : (s.promises p).refs with
  | none => exact h
  | some ij =>
      obtain ⟨i, j⟩ := ij
      dsimp only
      rw [use_owned (h.slots.live p i j hrefs hpc).1]
      split
      · exact h.registry (rawseti_same ..) (h.slots.setDone hrefs hpc)
      · exact h

theorem Balance.myReject (h : Balance s)
    (hclean : (s.promises p).refs = none ∨ s.called p = false ∧ s.Done p) :
    (myReject depth p v s).Comes fun _ t => Balance t := by
  rw [Lua.myReject]
  rcases hclean with hnone | ⟨hpc, i, j, hrefs, hdone⟩
  · rw [hnone]
    exact h
  · rw [hrefs]
    dsimp only
    rw [use_owned (h.slots.live p i j hrefs hpc).1, if_pos hdone]
    exact h

/-- Handlers that are nil and promises that wait change nothing but promises. -/
theorem Balance.untouched {t : State} (h : Balance s) (ht : Untouched s t) (hforest : Forest t []) :
    Balance t := by
  refine ⟨ht.slotsKept h.slots, hforest, ht.errerr.trans h.errerr, fun q hq hfalse => ?_, fun q hq => ?_⟩
  · rw [ht.refs] at hq
    rw [ht.state q hq]
    exact h.uncalled q hq (ht.called ▸ hfalse)
  · rw [ht.count] at hq
    rw [ht.unborn q hq, ht.called]
    exact h.unborn q hq

/-- A slot that a handler takes and gives back is as it was. -/
theorem Slots.borrow {t : State} (h : Slots s) (call : Nat) (w : Value)
    (ht : t.slots = (s.ref (.handler call) w).2.slots) (hlen : t.len = (s.ref (.handler call) w).2.len)
    (howner : t.owner = (s.ref (.handler call) w).2.owner) (hmisuses : t.misuses = s.misuses)
    (hcalled : t.called = s.called) (hrefs : ∀ x, (t.promises x).refs = (s.promises x).refs) :
    Slots (t.unref (.handler call) (s.ref (.handler call) w).1) := by
  obtain ⟨free, hheld⟩ := h.held
  obtain ⟨⟨free₁, hheld₁⟩, hnew, hown, -, hothers, -⟩ := hheld.ref (.handler call) w
  generalize (s.ref (.handler call) w).1 = r at *
  generalize (s.ref (.handler call) w).2 = s₁ at *
  have hheld₂ : Held t free₁ := by
    refine ⟨?_, ?_, ?_⟩
    · rw [ht]
      exact hheld₁.chain
    · rw [hlen, howner]
      exact hheld₁.mem
    · rw [hlen, howner]
      exact hheld₁.owned
  have hr : t.owner r = some (.handler call) := by rw [howner, hown, Function.update_self]
  obtain ⟨hheld₃, hown₃, hslots₃, hmisuses₃⟩ := hheld₂.unref hr
  have hsame := unref_same t (.handler call) r
  have hback : (t.unref (.handler call) r).owner = s.owner := by
    rw [hown₃, howner, hown, Function.update_idem, ← hnew, Function.update_eq_self]
  have hslot : ∀ x o, s.owner x = some o → (t.unref (.handler call) r).slots x = s.slots x := by
    intro x o hx
    have hxr : x ≠ r := fun heq => by
      rw [heq, hnew] at hx
      cases hx
    have hx' : t.owner x ≠ none := by
      rw [howner, hown, Function.update_of_ne hxr, hx]
      simp
    rw [hslots₃ x hx' hxr, ht, hothers x (by simp [hx])]
  refine ⟨⟨_, hheld₃⟩, hmisuses₃.trans (hmisuses.trans h.misuses), fun p i j hp hfalse => ?_,
    fun x p hx => ?_, fun x p hx => ?_, hback ▸ h.handlers⟩
  · rw [hsame.promises, hrefs] at hp
    rw [hsame.called, hcalled] at hfalse
    obtain ⟨hi, hj, hval⟩ := h.live p i j hp hfalse
    rw [hback, hslot j _ hj]
    exact ⟨hi, hj, hval⟩
  · rw [hsame.called, hcalled, hsame.promises, hrefs]
    exact h.flags x p (hback ▸ hx)
  · rw [hsame.called, hcalled, hsame.promises, hrefs]
    exact h.selves x p (hback ▸ hx)

/-- `error_handle` of a promise without handlers. -/
theorem errorHandle_zero {n call r q : Nat} {e : Value} {P : Unit → State → Prop}
    (hr : s.owner r = some (.handler call)) (hslot : s.slots r = .promise q)
    (hzero : (s.promises q).deferreds = .zero)
    (hP : P () ((s.settle q .rejected e).unref (.handler call) r)) : (errorHandle n call r e s).Comes P := by
  cases n with
  | zero =>
      rw [errorHandle]
      trivial
  | succ n =>
      rw [errorHandle, use_owned hr, hslot]
      cases n with
      | zero =>
          rw [reject]
          trivial
      | succ n =>
          rw [reject]
          cases n with
          | zero =>
              rw [finale]
              trivial
          | succ n =>
              have hds : ((s.settle q .rejected e).promises q).deferreds = .zero := by rw [settle_self, hzero]
              rw [finale, hds]
              exact hP

/-- A settled promise is rejected, and a slot is given back. -/
theorem Balance.rejected {u : State} {q r : Nat} {o : Owner} {e : Value} (h : Balance s)
    (hpromises : u.promises = s.promises) (hcount : u.count = s.count) (hcalled : u.called = s.called)
    (hq : q < s.count) (hstate : (s.promises q).state ≠ .pending)
    (hslots : Slots ((u.settle q .rejected e).unref o r)) :
    Balance { (u.settle q .rejected e).unref o r with errerr := false } := by
  have hsame := unref_same (u.settle q .rejected e) o r
  have hrejected : (u.settle q .rejected e).promises = (s.settle q .rejected e).promises := by
    rw [State.settle, State.settle, State.setPromise, State.setPromise, hpromises]
  have hcount' : ((u.settle q .rejected e).unref o r).count = s.count := hsame.count.trans hcount
  have hcalled' : ((u.settle q .rejected e).unref o r).called = s.called := hsame.called.trans hcalled
  have hpromises' : ((u.settle q .rejected e).unref o r).promises = (s.settle q .rejected e).promises :=
    hsame.promises.trans hrejected
  have hforest : Forest (s.settle q .rejected e) [] :=
    h.forest.resettle hstate (by simp) ⟨fun heq => absurd heq (by simp), fun heq => absurd heq (by simp)⟩
  generalize (u.settle q .rejected e).unref o r = t at *
  refine ⟨hslots.congr rfl rfl rfl rfl rfl fun _ => rfl, hforest.congr hpromises' (Nat.le_of_eq hcount'.symm),
    rfl, fun x hx hfalse => ?_, fun x hx => ?_⟩
  · have hx : (t.promises x).refs ≠ none := hx
    have hfalse : t.called x = false := hfalse
    show (t.promises x).state = .pending
    rw [hpromises'] at hx ⊢
    rw [settle_refs] at hx
    rw [hcalled'] at hfalse
    have hpending := h.uncalled x hx hfalse
    have hxq : x ≠ q := by
      rintro rfl
      exact hstate hpending
    rw [settle_ne hxq]
    exact hpending
  · have hx : t.count ≤ x := hx
    show t.promises x = freshPromise ∧ t.called x = false
    rw [hcount'] at hx
    rw [hpromises', hcalled', settle_ne (Nat.ne_of_gt (Nat.lt_of_lt_of_le hq hx))]
    exact h.unborn x hx

/-- A handler throws into `error_handle`, which rejects the promise that the handler was put on. -/
theorem Balance.handlerThrows {n q : Nat} {d : Deferred} {f : Fn} {e : Value} (h : Balance s)
    (hq : q < s.count) (hsel : d.selected (s.promises q).state = some f)
    (hf : f (s.promises q).value = .error e) (hstate : (s.promises q).state ≠ .pending)
    (hzero : (s.promises q).deferreds = .zero) :
    (handleResolved n q (some d) s).Comes fun _ t => Balance t := by
  obtain ⟨free, hheld⟩ := h.slots.held
  obtain ⟨-, -, hown, hvalue, -, hmisuses⟩ := hheld.ref (.handler s.calls.length) (.promise q)
  have hsame := ref_same s (.handler s.calls.length) (.promise q)
  have herrerr : (s.callHandler q d).2.errerr = false := hsame.errerr.trans h.errerr
  cases n with
  | zero =>
      rw [handleResolved]
      trivial
  | succ n =>
      rw [handleResolved]
      dsimp only
      rw [hsel]
      dsimp only
      rw [hf]
      dsimp only
      rw [herrerr, if_neg (by simp)]
      have hr : (s.callHandler q d).2.owner (s.callHandler q d).1 = some (.handler s.calls.length) := by
        show (s.ref (.handler s.calls.length) (.promise q)).2.owner _ = _
        rw [hown]
        exact Function.update_self ..
      have hpromises : (s.callHandler q d).2.promises = s.promises := hsame.promises
      refine Ret.Comes.andThen (errorHandle_zero (P := fun _ t => Balance { t with errerr := false }) hr hvalue
        (hpromises ▸ hzero) ?_) fun _ t ht => ht
      have hslots := h.slots.borrow (t := State.settle
        { (s.callHandler q d).2 with thrown := (s.callHandler q d).2.thrown + 1, errerr := true }
        q .rejected e) s.calls.length (.promise q) rfl rfl rfl hmisuses hsame.called fun x => by
          rw [settle_refs, ← hpromises]
      exact h.rejected hpromises hsame.count hsame.called hq hstate hslots

theorem Balance.thennext {f g : Option Fn} (h : Balance s) (hp : p < s.count) (hclean : s.Throwing p f g) :
    (thennext depth p f g s).Comes fun _ t => Balance t := by
  have hnew := h.newPromise
  have hforest := h.newHandler f g
  have hfresh : s.newPromise.2.promises s.count = freshPromise := newPromise_new s
  rw [State.Throwing] at hclean
  rw [thennext_eq]
  refine Ret.Comes.andThen (P := fun _ t => Balance t) ?_ fun _ _ ht => ht
  have hp' : p < s.newPromise.2.count := Nat.lt_succ_of_lt hp
  generalize s.newPromise.2 = t at *
  cases hfollow : t.follow (t.count + 1) p with
  | none => exact handle_hangs hfollow
  | some q =>
      obtain ⟨hq, hresolving⟩ := hforest.follow hp' hfollow
      by_cases hstate : (t.promises q).state = .pending
      · refine (handle_ending ⟨hfollow, hstate, hq⟩ hforest).mono ?_
        rintro _ u ⟨hu, -, hforest', -⟩
        exact hnew.untouched hu hforest'
      · cases depth with
        | zero =>
            rw [handle]
            trivial
        | succ n =>
            rw [handle, hfollow]
            dsimp only
            rw [if_neg hstate]
            refine Ret.Comes.andThen (P := fun _ u => Balance u) ?_ fun _ _ hu => hu
            cases hsel : (if (t.promises q).state = .resolved then f else g) with
            | some fn =>
                obtain ⟨hzero, e, he⟩ := hclean q fn hfollow hstate hsel
                exact hnew.handlerThrows hq hsel he hstate hzero
            | none =>
                have hkind := PState.settled hstate hresolving
                have hpass : Passes t (t.promises q).state s.count := by
                  refine ⟨_, fun d hd => ?_, fun d hd => ?_⟩
                  · rw [hfresh] at hd
                    cases hd
                  · rw [hfresh] at hd
                    cases hd
                refine ((passesAt t (t.promises q).state n).handleResolved t q _ [] (.refl t) hforest rfl hkind
                  hsel hpass).mono ?_
                exact fun _ u hu => hnew.untouched hu.1.toUntouched hu.2

theorem Balance.step {c : Step} (h : Balance s) (hc : c.Clean s) (hrun : step depth s c = .ok s') :
    Balance s' := by
  cases step_effect hrun with
  | refused => exact h
  | new =>
      have hnew := h.newPromise
      have hfresh := newPromise_new s
      refine hnew.startExecutor (Nat.lt_succ_self _) (by rw [hfresh]; rfl) ?_ (by rw [hfresh]; rfl) fun x d hd => ?_
      · exact (h.unborn s.count (Nat.le_refl _)).2
      · exact ((h.newHandler none none).ne List.mem_cons_self hd).symm
  | plain => exact h.newPromise
  | leave =>
      exact ⟨h.slots.congr rfl rfl rfl rfl rfl fun _ => rfl, h.forest.congr rfl (Nat.le_refl _), h.errerr,
        h.uncalled, h.unborn⟩
  | @throw p rest hrunning =>
      have hthrow := h.executorThrows (hc p rest hrunning)
      exact ⟨hthrow.slots.congr rfl rfl rfl rfl rfl fun _ => rfl, hthrow.forest.congr rfl (Nat.le_refl _),
        hthrow.errerr, hthrow.uncalled, hthrow.unborn⟩
  | resolve hv hrefs hcall =>
      obtain ⟨⟨i, j⟩, hrefs⟩ := Option.isSome_iff_exists.1 hrefs
      obtain ⟨_, hs₁⟩ := (h.myResolve hv hrefs hc.1 hc.2).of_caught hcall
      exact hs₁
  | reject hv hcall =>
      obtain ⟨_, hs'⟩ := (h.myReject hc).of_caught hcall
      exact hs'
  | next hp hcall =>
      obtain ⟨_, hs'⟩ := (h.thennext hp hc).of_caught hcall
      exact hs'
  | @ref v hv => exact h.registry (ref_same s .foreign v) (h.slots.take v)
  | unref hr => exact h.registry (unref_same s .foreign _) (h.slots.give hr)

end Steps

/-! ## Runs -/

theorem Balance.fresh : Balance fresh := by
  have hwaiting : ∀ x, Lua.fresh.waiting x = [] := fun x => rfl
  refine ⟨⟨⟨[], rfl, fun r => ?_, fun r hr => absurd rfl hr⟩, rfl, fun p i j hrefs => ?_, fun r p hr => ?_,
    fun r p hr => ?_, fun r call hr => ?_⟩, ⟨fun x _ => ?_, fun x d hd => ?_, fun x => ?_, fun x y d hd => ?_,
    fun x => ⟨fun heq => ?_, fun heq => ?_⟩⟩, rfl, fun p hp => absurd rfl hp, fun p _ => ⟨rfl, rfl⟩⟩
  · constructor
    · exact fun hr => absurd hr (by simp)
    · rintro ⟨hpos, hle, -⟩
      exact absurd hpos (Nat.not_lt.2 hle)
  · cases hrefs
  · cases hr
  · cases hr
  · cases hr
  · exact Deferreds.noConfusion
  · cases hd
  · exact List.nodup_nil
  · cases hd
  · cases heq
  · cases heq

/-- A run of clean steps gives every slot back, once. -/
theorem slots_balance {depth : Nat} {cs : List Step} {s : State} (hrun : steps depth fresh cs = .ok s)
    (hclean : Run.AllSafe (step depth) (fun s c => c.Clean s) fresh cs) : Balanced s :=
  (Run.AllSafe.keeps (fun _ _ _ h hstep hc => h.step hc hstep) hclean Balance.fresh hrun).balanced

/-- A promise is resolved, and the one derived from it with it. Other code takes one of the slots, and the
    executor of another promise fails before it resolves it. Then a handler throws. -/
def balancedRun : List Step :=
  [.new, .next 0 none none, .resolve 0 (.num 5), .leave, .ref (.num 7), .new, .throw, .resolve 2 (.num 1),
    .next 1 (some fun v => .error v) none]

/-- No handler was ever put on the promise. -/
def Deferreds.isZero : Deferreds → Bool
  | .zero => true
  | _ => false

theorem Deferreds.eq_zero {ds : Deferreds} (h : ds.isZero = true) : ds = .zero := by
  cases ds with
  | zero => rfl
  | one d => cases h
  | table ds => cases h

/-- The first `n` steps of the run are clean. -/
def CleanFor (n : Nat) : Prop :=
  Run.AllSafe (step 9) (fun s c => c.Clean s) fresh (balancedRun.take n)

theorem CleanFor.succ {n : Nat} {c : Step} (h : CleanFor n) (hc : balancedRun[n]? = some c)
    (hlast : ∀ s, steps 9 fresh (balancedRun.take n) = .ok s → c.Clean s) : CleanFor (n + 1) := by
  unfold CleanFor
  rw [List.take_add_one, hc]
  exact h.concat hlast

theorem cleanFor_next : CleanFor 2 := by
  refine CleanFor.succ (fun _ _ => ⟨trivial, trivial⟩) rfl fun s _ q f _ _ hf => ?_
  split at hf <;> cases hf

theorem cleanFor_resolve : CleanFor 3 := by
  let after (s : State) := s.settle 0 .resolved (.num 5)
  refine cleanFor_next.succ rfl fun s hrun => ?_
  have hcalled : (steps 9 fresh (balancedRun.take 2)).map (fun s => s.called 0) = .ok false := by
    decide +kernel
  have hcalled := of_map_eq_ok hcalled hrun
  have hafter : (steps 9 fresh (balancedRun.take 2)).map (fun s =>
      ((after s).follow ((after s).count + 1) 0, ((after s).promises 0).state,
        ((after s).promises 0).deferreds.toList.map (fun d => (d.onFulfilled.isNone, d.promise)),
        ((after s).promises 1).deferreds.toList.isEmpty)) =
      .ok (some 0, .resolved, [(true, 1)], true) := by
    decide +kernel
  have hafter := of_map_eq_ok hafter hrun
  simp only [Prod.mk.injEq] at hafter
  obtain ⟨hfollow, hstate, hds, hnone⟩ := hafter
  refine ⟨hcalled, .inr fun r hr => ?_⟩
  obtain rfl : 0 = r := Option.some.inj (hfollow.symm.trans hr)
  show if ((after s).promises 0).state = .pending then _ else Passes (after s) ((after s).promises 0).state 0
  rw [hstate, if_neg (by decide)]
  obtain ⟨d, hd, hd'⟩ := List.map_eq_singleton_iff.1 hds
  obtain ⟨hsel, hp⟩ := Prod.mk.inj hd'
  have hnil := List.isEmpty_iff.1 hnone
  refine .intro 0 (fun e he => ?_) fun e he => ?_
  · rw [hd, List.mem_singleton] at he
    rw [he]
    exact Option.isNone_iff_eq_none.1 hsel
  · rw [hd, List.mem_singleton] at he
    rw [he, hp]
    exact .intro 1 (fun e he => absurd (hnil ▸ he) List.not_mem_nil)
      fun e he => absurd (hnil ▸ he) List.not_mem_nil

theorem cleanFor_throw : CleanFor 7 := by
  have hleave : CleanFor 4 := cleanFor_resolve.succ rfl fun _ _ => trivial
  have href : CleanFor 5 := hleave.succ rfl fun _ _ => trivial
  have hnew : CleanFor 6 := href.succ rfl fun _ _ => trivial
  refine hnew.succ rfl fun s hrun p rest hp => ?_
  have hobs : (steps 9 fresh (balancedRun.take 6)).map (fun s => (s.running, s.called 2)) =
      .ok ([2], false) := by
    decide +kernel
  have hs := of_map_eq_ok hobs hrun
  obtain ⟨hrunning, hcalled⟩ := Prod.mk.inj hs
  obtain rfl : 2 = p := (List.cons.inj (hrunning.symm.trans hp)).1
  exact hcalled

theorem cleanFor_done : CleanFor 8 := by
  refine cleanFor_throw.succ rfl fun s hrun => ?_
  have hobs : (steps 9 fresh (balancedRun.take 7)).map (fun s =>
      (s.called 2, (s.promises 2).refs, s.slots 1)) = .ok (false, some (1, 3), .num 1) := by
    decide +kernel
  have hs := of_map_eq_ok hobs hrun
  simp only [Prod.mk.injEq] at hs
  obtain ⟨hcalled, hrefs, hslot⟩ := hs
  exact ⟨hcalled, .inl ⟨1, 3, hrefs, by rw [hslot]; decide⟩⟩

theorem cleanFor_all : CleanFor 9 := by
  refine cleanFor_done.succ rfl fun s hrun q f hq _ hf => ?_
  have hobs : (steps 9 fresh (balancedRun.take 8)).map (fun s =>
      (s.newPromise.2.follow (s.newPromise.2.count + 1) 1, (s.newPromise.2.promises 1).state,
        (s.newPromise.2.promises 1).deferreds.isZero)) = .ok (some 1, .resolved, true) := by
    decide +kernel
  have hs := of_map_eq_ok hobs hrun
  simp only [Prod.mk.injEq] at hs
  obtain ⟨hfollow, hstate, hzero⟩ := hs
  obtain rfl : 1 = q := Option.some.inj (hfollow.symm.trans hq)
  rw [if_pos hstate] at hf
  obtain rfl := Option.some.inj hf
  exact ⟨Deferreds.eq_zero hzero, _, rfl⟩

/-- Two slots are given back and taken again; in the end only the other code has one. -/
theorem slots_balance_reused : ∃ s, steps 9 fresh balancedRun = .ok s ∧ Balanced s ∧ s.len = 3 ∧
    (s.owner 1, s.owner 2, s.owner 3) = (none, some .foreign, none) := by
  have hend : (steps 9 fresh balancedRun).map (fun s => (s.len, s.owner 1, s.owner 2, s.owner 3)) =
      .ok (3, none, some .foreign, none) := by decide +kernel
  obtain ⟨s, hrun, hs⟩ := map_eq_ok.1 hend
  obtain ⟨hlen, howner⟩ := Prod.mk.inj hs
  exact ⟨s, hrun, slots_balance hrun cleanFor_all, hlen, howner⟩

/-- A promise that its reject callback has settled keeps its slots. -/
theorem not_balanced : ¬ ∀ depth cs s, 9 ≤ depth → steps depth fresh cs = .ok s → Balanced s := by
  intro hall
  let cs : List Step := [.new, .reject 0 (.num 6)]
  have hend : (steps 9 fresh cs).map (fun s => (s.owner 1, (s.promises 0).state)) =
      .ok (some (.flag 0), .rejected) := by decide +kernel
  obtain ⟨s, hrun, hend⟩ := map_eq_ok.1 hend
  obtain ⟨howner, hstate⟩ := Prod.mk.inj hend
  have hpending := (hall 9 cs s (Nat.le_refl 9) hrun).callbacks 1 0 (.inl howner)
  rw [hstate] at hpending
  cases hpending

end Yaos.Lua
