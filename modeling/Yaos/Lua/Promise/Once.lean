import Yaos.Lib.Run
import Yaos.Lua.Promise.Registry

set_option autoImplicit false

/-! # A promise settles once

`my_resolve` gives the slots of both callbacks back, so that a later callback finds a `done` flag and a
promise in slots that are free or belong to something else. Where no callback is called after
`my_resolve` and no handler throws, a promise is settled once, and its callbacks settle nothing else. -/

namespace Yaos.Lua

/-- A promise without callbacks. -/
def Plain (s : State) (p : Nat) : Prop := p < s.count ∧ (s.promises p).refs = none

/-- What holds as long as no handler has thrown. -/
structure OnceInv (s : State) : Prop where
  held : ∃ free, Held s free
  live : ∀ p i j, (s.promises p).refs = some (i, j) → s.called p = false →
    s.owner i = some (.flag p) ∧ s.owner j = some (.self p) ∧ s.slots j = .promise p ∧
      (s.settles p ≠ 0 → (s.slots i).toInteger ≠ 0)
  once : ∀ p, (s.promises p).refs ≠ none → s.settles p ≤ 1
  unborn : ∀ p, s.count ≤ p → (s.promises p).refs = none ∧ s.called p = false ∧ s.settles p = 0
  unsettled : ∀ p, s.settles p = 0 → (s.promises p).state = .pending ∧ (s.promises p).value = .nil
  strays : s.strays = 0

/-- A promise that is not settled again stays as it is, and it keeps its callbacks. -/
def Kept (s₀ s : State) : Prop :=
  ∀ p, s₀.settles p ≤ s.settles p ∧
    (s.settles p = s₀.settles p →
      (s.promises p).state = (s₀.promises p).state ∧ (s.promises p).value = (s₀.promises p).value) ∧
    ((s₀.promises p).refs ≠ none → (s.promises p).refs = (s₀.promises p).refs)

theorem Kept.refl (s : State) : Kept s s := fun _ => ⟨Nat.le_refl _, fun _ => ⟨rfl, rfl⟩, fun _ => rfl⟩

theorem Kept.trans {s s₁ s' : State} (h : Kept s s₁) (h' : Kept s₁ s') : Kept s s' := by
  intro p
  obtain ⟨hle, hsame, hrefs⟩ := h p
  obtain ⟨hle', hsame', hrefs'⟩ := h' p
  refine ⟨Nat.le_trans hle hle', fun heq => ?_, fun hne => ?_⟩
  · obtain ⟨hstate, hvalue⟩ := hsame (by omega)
    obtain ⟨hstate', hvalue'⟩ := hsame' (by omega)
    exact ⟨hstate'.trans hstate, hvalue'.trans hvalue⟩
  · rw [hrefs' (hrefs hne ▸ hne), hrefs hne]

/-- What holds inside a call that was made in `s₀`. -/
structure Within (s₀ s : State) : Prop where
  count : s.count = s₀.count
  refs : ∀ p, (s.promises p).refs = (s₀.promises p).refs
  called : s.called = s₀.called
  target : ∀ p, ∀ d ∈ (s.promises p).deferreds.toList, Plain s₀ d.promise
  kept : Kept s₀ s
  inv : s.thrown = 0 → OnceInv s

section Primitive

variable {s₀ s s' : State} {p : Nat}

/-- The registry changes, but not in the slots of the callbacks. -/
theorem OnceInv.registry (h : OnceInv s) (hsame : SameButRegistry s s') (hheld : ∃ free, Held s' free)
    (hkeep : ∀ p i j, (s.promises p).refs = some (i, j) → s.called p = false →
      s'.owner i = s.owner i ∧ s'.owner j = s.owner j ∧ s'.slots j = s.slots j ∧
        (s'.slots i = s.slots i ∨ (s'.slots i).toInteger ≠ 0)) : OnceInv s' := by
  obtain ⟨hpromises, hcount, -, -, hcalled, hsettles, hstrays, -, -⟩ := hsame
  refine ⟨hheld, fun p i j hrefs hp => ?_, ?_, ?_, ?_, hstrays.trans h.strays⟩
  · rw [hpromises] at hrefs
    rw [hcalled] at hp
    obtain ⟨hi, hj, hself, hdone⟩ := h.live p i j hrefs hp
    obtain ⟨hi', hj', hself', hdone'⟩ := hkeep p i j hrefs hp
    refine ⟨hi'.trans hi, hj'.trans hj, hself'.trans hself, fun hset => ?_⟩
    rcases hdone' with heq | hne
    · rw [heq]
      exact hdone (hsettles ▸ hset)
    · exact hne
  · rw [hpromises, hsettles]
    exact h.once
  · rw [hpromises, hsettles, hcalled, hcount]
    exact h.unborn
  · rw [hpromises, hsettles]
    exact h.unsettled

/-- A new slot is none of those that are held. -/
theorem OnceInv.taken {o : Owner} {r : Nat} {v : Value} (h : OnceInv s) (hsame : SameButRegistry s s')
    (ht : Taken s s' o r v) : OnceInv s' := by
  have hother : ∀ t, s.owner t ≠ none → s'.owner t = s.owner t := by
    intro t hne
    have htr : t ≠ r := fun heq => hne (heq ▸ ht.new)
    rw [ht.owner, Function.update_of_ne htr]
  refine h.registry hsame ht.held fun p i j hrefs hp => ?_
  obtain ⟨hi, hj, -, -⟩ := h.live p i j hrefs hp
  have hi' : s.owner i ≠ none := by simp [hi]
  have hj' : s.owner j ≠ none := by simp [hj]
  exact ⟨hother i hi', hother j hj', ht.others j hj', .inl (ht.others i hi')⟩

theorem OnceInv.settle {state : PState} {v : Value} (h : OnceInv s) (hp : p < s.count)
    (hrefs : ∀ i j, (s.promises p).refs = some (i, j) →
      s.settles p = 0 ∧ (s.called p = false → (s.slots i).toInteger ≠ 0)) :
    OnceInv (s.settle p state v) := by
  have hpromise : ∀ q, ((s.settle p state v).promises q).refs = (s.promises q).refs := by
    intro q
    by_cases hq : q = p
    · subst hq
      simp [State.settle, State.setPromise]
    · simp [State.settle, State.setPromise, hq]
  have hsettles : ∀ q, q ≠ p → (s.settle p state v).settles q = s.settles q := fun q hq =>
    Function.update_of_ne hq ..
  have hself : (s.settle p state v).settles p = s.settles p + 1 := Function.update_self ..
  obtain ⟨free, hheld⟩ := h.held
  refine ⟨⟨free, hheld.chain, hheld.mem, hheld.owned⟩, fun q i j hq hcalled => ?_, fun q hq => ?_,
    fun q hq => ?_, fun q hq => ?_, h.strays⟩
  · rw [hpromise] at hq
    obtain ⟨hi, hj, hslot, hdone⟩ := h.live q i j hq hcalled
    refine ⟨hi, hj, hslot, fun hset => ?_⟩
    by_cases hqp : q = p
    · subst hqp
      exact (hrefs i j hq).2 hcalled
    · rw [hsettles q hqp] at hset
      exact hdone hset
  · rw [hpromise] at hq
    by_cases hqp : q = p
    · subst hqp
      obtain ⟨⟨i, j⟩, hij⟩ := Option.ne_none_iff_exists'.1 hq
      exact Nat.le_of_eq (hself.trans (congrArg (· + 1) (hrefs i j hij).1))
    · rw [hsettles q hqp]
      exact h.once q hq
  · have hqp : q ≠ p := fun heq => Nat.not_lt.2 hq (heq ▸ hp)
    rw [hpromise, hsettles q hqp]
    exact h.unborn q hq
  · by_cases hqp : q = p
    · subst hqp
      rw [hself] at hq
      omega
    · rw [hsettles q hqp] at hq
      simpa [State.settle, State.setPromise, hqp] using h.unsettled q hq

theorem Kept.settle {state : PState} {v : Value} (h : Kept s₀ s) : Kept s₀ (s.settle p state v) := by
  intro q
  obtain ⟨hle, hsame, hrefs⟩ := h q
  by_cases hq : q = p
  · subst hq
    have hself : (s.settle q state v).settles q = s.settles q + 1 := Function.update_self ..
    rw [hself]
    refine ⟨Nat.le_succ_of_le hle, fun heq => by omega, fun hne => ?_⟩
    simpa [State.settle, State.setPromise] using hrefs hne
  · have hother : (s.settle p state v).settles q = s.settles q := Function.update_of_ne hq ..
    have hsameq : (s.settle p state v).promises q = s.promises q := Function.update_of_ne hq ..
    rw [hother, hsameq]
    exact ⟨hle, hsame, hrefs⟩

theorem Within.settle {state : PState} (h : Within s₀ s) (v : Value)
    (hinv : s.thrown = 0 → OnceInv (s.settle p state v)) : Within s₀ (s.settle p state v) := by
  refine ⟨h.count, fun q => ?_, h.called, fun q => ?_, h.kept.settle, hinv⟩
  · by_cases hq : q = p
    · subst hq
      simpa [State.settle, State.setPromise] using h.refs q
    · simpa [State.settle, State.setPromise, hq] using h.refs q
  · by_cases hq : q = p
    · subst hq
      simpa [State.settle, State.setPromise] using h.target q
    · simpa [State.settle, State.setPromise, hq] using h.target q

theorem Within.registry (h : Within s₀ s) (hsame : SameButRegistry s s')
    (hinv : s'.thrown = 0 → OnceInv s') : Within s₀ s' := by
  refine ⟨hsame.count.trans h.count, ?_, hsame.called.trans h.called, ?_, ?_, hinv⟩
  · rw [hsame.promises]
    exact h.refs
  · rw [hsame.promises]
    exact h.target
  · intro q
    rw [hsame.settles, hsame.promises]
    exact h.kept q

theorem OnceInv.setDeferreds {ds : Deferreds} (h : OnceInv s) : OnceInv (s.setDeferreds p ds) := by
  have hpromise : ∀ q, ((s.setDeferreds p ds).promises q).refs = (s.promises q).refs ∧
      ((s.setDeferreds p ds).promises q).state = (s.promises q).state ∧
      ((s.setDeferreds p ds).promises q).value = (s.promises q).value := by
    intro q
    by_cases hq : q = p
    · subst hq
      simp [State.setDeferreds, State.setPromise]
    · simp [State.setDeferreds, State.setPromise, hq]
  obtain ⟨free, hheld⟩ := h.held
  refine ⟨⟨free, hheld.chain, hheld.mem, hheld.owned⟩, fun q i j hq => ?_, fun q hq => ?_, fun q hq => ?_,
    fun q hq => ?_, h.strays⟩
  · rw [(hpromise q).1] at hq
    exact h.live q i j hq
  · rw [(hpromise q).1] at hq
    exact h.once q hq
  · rw [(hpromise q).1]
    exact h.unborn q hq
  · rw [(hpromise q).2.1, (hpromise q).2.2]
    exact h.unsettled q hq

theorem Within.setDeferreds {ds : Deferreds} (h : Within s₀ s)
    (hds : ∀ d ∈ ds.toList, Plain s₀ d.promise) : Within s₀ (s.setDeferreds p ds) := by
  refine ⟨h.count, fun q => ?_, h.called, fun q => ?_, fun q => ?_, fun hthrown =>
    (h.inv hthrown).setDeferreds⟩
  · by_cases hq : q = p
    · subst hq
      simpa [State.setDeferreds, State.setPromise] using h.refs q
    · simpa [State.setDeferreds, State.setPromise, hq] using h.refs q
  · by_cases hq : q = p
    · subst hq
      simpa [State.setDeferreds, State.setPromise] using hds
    · simpa [State.setDeferreds, State.setPromise, hq] using h.target q
  · by_cases hq : q = p
    · subst hq
      simpa [State.setDeferreds, State.setPromise] using h.kept q
    · simpa [State.setDeferreds, State.setPromise, hq] using h.kept q

/-- Fields that the invariant does not read. -/
theorem OnceInv.congr (h : OnceInv s) (hpromises : s'.promises = s.promises) (hcount : s'.count = s.count)
    (hslots : s'.slots = s.slots) (hlen : s'.len = s.len) (howner : s'.owner = s.owner)
    (hcalled : s'.called = s.called) (hsettles : s'.settles = s.settles)
    (hstrays : s'.strays = s.strays) : OnceInv s' := by
  obtain ⟨free, hheld⟩ := h.held
  have hheld' : Held s' free := by
    refine ⟨?_, ?_, ?_⟩
    · rw [hslots]
      exact hheld.chain
    · rw [hlen, howner]
      exact hheld.mem
    · rw [hlen, howner]
      exact hheld.owned
  refine ⟨⟨free, hheld'⟩, ?_, ?_, ?_, ?_, hstrays.trans h.strays⟩
  · rw [hpromises, hcalled, howner, hslots, hsettles]
    exact h.live
  · rw [hpromises, hsettles]
    exact h.once
  · rw [hpromises, hcount, hcalled, hsettles]
    exact h.unborn
  · rw [hpromises, hsettles]
    exact h.unsettled

theorem Within.stable (s₀ : State) :
    Stable (fun d => Plain s₀ d.promise) (fun s p => Plain s₀ p ∨ s.thrown ≠ 0) (Within s₀) where
  hand := fun h hd => h.target _ _ hd
  target := fun _ hd => .inl hd
  settle := fun {s p state} v h hp _ => by
    refine h.settle v fun hthrown => ?_
    rcases hp with ⟨hlt, hplain⟩ | hne
    · refine (h.inv hthrown).settle (h.count ▸ hlt) fun i j hrefs => ?_
      rw [h.refs, hplain] at hrefs
      cases hrefs
    · exact absurd hthrown hne
  setDeferreds := fun h hds => h.setDeferreds hds
  errerr := fun {s} _ h => ⟨h.count, h.refs, h.called, h.target, h.kept, fun hthrown =>
    (h.inv hthrown).congr rfl rfl rfl rfl rfl rfl rfl rfl⟩
  call := fun {s q d} _ h _ => by
    have hsame := ref_same s (.handler s.calls.length) (.promise q)
    have href : Within s₀ (s.ref (.handler s.calls.length) (.promise q)).2 := by
      refine h.registry hsame fun hthrown => ?_
      have hinv := h.inv (hsame.thrown ▸ hthrown)
      obtain ⟨free, hheld⟩ := hinv.held
      exact hinv.taken hsame (hheld.ref _ _)
    exact ⟨href.count, href.refs, href.called, href.target, href.kept, fun hthrown =>
      (href.inv hthrown).congr rfl rfl rfl rfl rfl rfl rfl rfl⟩
  throws := fun {s} _ h => ⟨h.count, h.refs, h.called, h.target, h.kept, fun hthrown =>
    absurd hthrown (Nat.succ_ne_zero _)⟩
  slot := fun _ _ hne _ => .inr hne
  use := fun {s o r} _ h hne => by
    have hsame := use_same s o r
    exact h.registry hsame fun hthrown => absurd (hsame.thrown ▸ hthrown) hne
  unref := fun {s o r} _ h hne => by
    have hsame := unref_same s o r
    exact h.registry hsame fun hthrown => absurd (hsame.thrown ▸ hthrown) hne

end Primitive

/-! ## Steps -/

/-- The invariant of runs. -/
structure Once (s : State) : Prop where
  target : ∀ p, ∀ d ∈ (s.promises p).deferreds.toList, Plain s d.promise
  inv : s.thrown = 0 → OnceInv s

/-- What a step keeps. -/
structure Stepped (s s' : State) : Prop where
  once : Once s'
  thrown : s.thrown ≤ s'.thrown
  kept : s'.thrown = 0 → Kept s s'

section Steps

variable {s s' : State} {depth p : Nat}

theorem Once.within (h : Once s) : Within s s :=
  ⟨rfl, fun _ => rfl, rfl, h.target, .refl s, h.inv⟩

theorem Within.stepped (h : Within s s') (hthrown : s.thrown ≤ s'.thrown) : Stepped s s' := by
  refine ⟨⟨fun q d hd => ?_, h.inv⟩, hthrown, fun _ => h.kept⟩
  obtain ⟨hlt, hrefs⟩ := h.target q d hd
  exact ⟨h.count ▸ hlt, (h.refs _).trans hrefs⟩

theorem Once.stay (h : Once s) : Stepped s s := h.within.stepped (Nat.le_refl _)

theorem Stepped.trans {s₁ : State} (h : Stepped s s₁) (h' : Stepped s₁ s') : Stepped s s' := by
  refine ⟨h'.once, Nat.le_trans h.thrown h'.thrown, fun hzero => ?_⟩
  have hle := h'.thrown
  exact (h.kept (by omega)).trans (h'.kept hzero)

/-- No handler is for the new promise. -/
theorem Once.newPromise_target (h : Once s) :
    ∀ q, ∀ d ∈ (s.newPromise.2.promises q).deferreds.toList, d.promise < s.count := by
  intro q d hd
  by_cases hq : q = s.count
  · rw [hq, State.newPromise] at hd
    simp [State.setPromise, Deferreds.toList] at hd
  · rw [State.newPromise] at hd
    simp only [State.setPromise, Function.update_of_ne hq] at hd
    exact (h.target q d hd).1

theorem Once.newPromise (h : Once s) : Stepped s s.newPromise.2 := by
  have hne : ∀ q, q ≠ s.count → s.newPromise.2.promises q = s.promises q := fun q hq =>
    Function.update_of_ne hq ..
  have hself : s.newPromise.2.promises s.count =
      { state := .pending, value := .nil, deferreds := .zero, refs := none } := Function.update_self ..
  refine ⟨⟨fun q d hd => ?_, fun hthrown => ?_⟩, Nat.le_refl _, fun hthrown => ?_⟩
  · by_cases hq : q = s.count
    · rw [hq, hself] at hd
      simp [Deferreds.toList] at hd
    · rw [hne q hq] at hd
      obtain ⟨hlt, hrefs⟩ := h.target q d hd
      exact ⟨Nat.lt_succ_of_lt hlt, (hne _ (Nat.ne_of_lt hlt)).symm ▸ hrefs⟩
  · have hinv := h.inv hthrown
    obtain ⟨free, hheld⟩ := hinv.held
    refine ⟨⟨free, hheld.chain, hheld.mem, hheld.owned⟩, fun q i j hq => ?_, fun q hq => ?_, fun q hq => ?_,
      fun q hq => ?_, hinv.strays⟩
    · by_cases hqc : q = s.count
      · rw [hqc, hself] at hq
        cases hq
      · rw [hne q hqc] at hq
        exact hinv.live q i j hq
    · by_cases hqc : q = s.count
      · rw [hqc, hself] at hq
        exact absurd rfl hq
      · rw [hne q hqc] at hq
        exact hinv.once q hq
    · have hle : s.count ≤ q := Nat.le_of_succ_le hq
      have hqc : q ≠ s.count := Nat.ne_of_gt hq
      rw [hne q hqc]
      exact hinv.unborn q hle
    · by_cases hqc : q = s.count
      · rw [hqc, hself]
        exact ⟨rfl, rfl⟩
      · rw [hne q hqc]
        exact hinv.unsettled q hq
  · intro q
    by_cases hqc : q = s.count
    · have hinv := h.inv hthrown
      obtain ⟨hrefs, -, hzero⟩ := hinv.unborn s.count (Nat.le_refl _)
      obtain ⟨hstate, hvalue⟩ := hinv.unsettled s.count hzero
      rw [hqc, hself, hstate, hvalue]
      exact ⟨Nat.le_refl _, fun _ => ⟨rfl, rfl⟩, fun hne => absurd hrefs hne⟩
    · rw [hne q hqc]
      exact ⟨Nat.le_refl _, fun _ => ⟨rfl, rfl⟩, fun _ => rfl⟩

theorem OnceInv.setRefs {i j : Nat} (h : OnceInv s) (hp : p < s.count) (hi : s.owner i = some (.flag p))
    (hj : s.owner j = some (.self p)) (hslot : s.slots j = .promise p) (hzero : s.settles p = 0) :
    OnceInv (s.setPromise p { s.promises p with refs := some (i, j) }) := by
  have hne : ∀ q, q ≠ p →
      (s.setPromise p { s.promises p with refs := some (i, j) }).promises q = s.promises q := fun q hq =>
    Function.update_of_ne hq ..
  have hself : (s.setPromise p { s.promises p with refs := some (i, j) }).promises p =
      { s.promises p with refs := some (i, j) } := Function.update_self ..
  obtain ⟨free, hheld⟩ := h.held
  refine ⟨⟨free, hheld.chain, hheld.mem, hheld.owned⟩, fun q i' j' hq => ?_, fun q hq => ?_, fun q hq => ?_,
    fun q hq => ?_, h.strays⟩
  · by_cases hqp : q = p
    · subst hqp
      rw [hself] at hq
      obtain ⟨rfl, rfl⟩ := Prod.mk.inj (Option.some.inj hq)
      exact fun _ => ⟨hi, hj, hslot, fun hne => absurd hzero hne⟩
    · rw [hne q hqp] at hq
      exact h.live q i' j' hq
  · by_cases hqp : q = p
    · subst hqp
      show s.settles q ≤ 1
      omega
    · rw [hne q hqp] at hq
      exact h.once q hq
  · have hqp : q ≠ p := fun heq => Nat.not_lt.2 hq (heq ▸ hp)
    rw [hne q hqp]
    exact h.unborn q hq
  · by_cases hqp : q = p
    · subst hqp
      rw [hself]
      exact h.unsettled q hq
    · rw [hne q hqp]
      exact h.unsettled q hq

/-- The two slots of a new promise. -/
theorem Once.startExecutor (h : Once s) (hp : p < s.count) (hzero : s.thrown = 0 → s.settles p = 0)
    (hfree : ∀ q, ∀ d ∈ (s.promises q).deferreds.toList, d.promise ≠ p)
    (hnone : (s.promises p).refs = none) : Stepped s (s.startExecutor p) := by
  generalize hs₁ : s.ref (.flag p) (.num 0) = w₁
  obtain ⟨i, s₁⟩ := w₁
  generalize hs₂ : s₁.ref (.self p) (.promise p) = w₂
  obtain ⟨j, s₂⟩ := w₂
  have hsame₁ : SameButRegistry s s₁ := by simpa [hs₁] using ref_same s (.flag p) (.num 0)
  have hsame₂ : SameButRegistry s₁ s₂ := by simpa [hs₂] using ref_same s₁ (.self p) (.promise p)
  have hpromises : s₂.promises = s.promises := hsame₂.promises.trans hsame₁.promises
  have hcount : s₂.count = s.count := hsame₂.count.trans hsame₁.count
  have hthrown : s₂.thrown = s.thrown := hsame₂.thrown.trans hsame₁.thrown
  have hsettles : s₂.settles = s.settles := hsame₂.settles.trans hsame₁.settles
  have hdef : s.startExecutor p =
      { s₂.setPromise p { s₂.promises p with refs := some (i, j) } with
        running := p :: s₂.running } := by
    rw [State.startExecutor]
    dsimp only
    rw [hs₁]
    dsimp only
    rw [hs₂]
  have hne : ∀ q, q ≠ p → (s₂.setPromise p { s₂.promises p with refs := some (i, j) }).promises q =
      s.promises q := fun q hq => by
    rw [State.setPromise, ← hpromises]
    exact Function.update_of_ne hq ..
  have hself : (s₂.setPromise p { s₂.promises p with refs := some (i, j) }).promises p =
      { s.promises p with refs := some (i, j) } := by
    rw [← hpromises]
    exact Function.update_self ..
  rw [hdef]
  refine ⟨⟨fun q d hd => ?_, fun hzero' => ?_⟩, Nat.le_of_eq hthrown.symm, fun _ q => ?_⟩
  · have hd' : d ∈ (s.promises q).deferreds.toList := by
      by_cases hq : q = p
      · subst hq
        rwa [hself] at hd
      · rwa [hne q hq] at hd
    obtain ⟨hlt, hrefs⟩ := h.target q d hd'
    exact ⟨hcount.symm ▸ hlt, (hne _ (hfree q d hd')).symm ▸ hrefs⟩
  · have hinv := h.inv (hthrown ▸ hzero')
    obtain ⟨free, hheld⟩ := hinv.held
    have ht₁ : Taken s s₁ (.flag p) i (.num 0) := by simpa [hs₁] using hheld.ref (.flag p) (.num 0)
    have hinv₁ := hinv.taken hsame₁ ht₁
    obtain ⟨free₁, hheld₁⟩ := hinv₁.held
    have ht₂ : Taken s₁ s₂ (.self p) j (.promise p) := by
      simpa [hs₂] using hheld₁.ref (.self p) (.promise p)
    have hinv₂ := hinv₁.taken hsame₂ ht₂
    have hi₁ : s₁.owner i = some (.flag p) := by rw [ht₁.owner, Function.update_self]
    -- the two slots are two: the first was taken before the second was looked for
    have hij : i ≠ j := fun heq => by
      rw [heq, ht₂.new] at hi₁
      cases hi₁
    have hi : s₂.owner i = some (.flag p) := by rw [ht₂.owner, Function.update_of_ne hij, hi₁]
    have hj : s₂.owner j = some (.self p) := by rw [ht₂.owner, Function.update_self]
    have hnone := hsettles ▸ hzero (hthrown ▸ hzero')
    exact (hinv₂.setRefs (hcount.symm ▸ hp) hi hj ht₂.value hnone).congr rfl rfl rfl rfl rfl rfl rfl
      rfl
  · show s.settles q ≤ s₂.settles q ∧ _
    rw [hsettles]
    by_cases hq : q = p
    · subst hq
      refine ⟨Nat.le_refl _, fun _ => ?_, fun hne => absurd hnone hne⟩
      show ((s₂.setPromise q _).promises q).state = _ ∧ ((s₂.setPromise q _).promises q).value = _
      rw [hself]
      exact ⟨rfl, rfl⟩
    · have hsame : (s₂.setPromise p { s₂.promises p with refs := some (i, j) }).promises q =
          s.promises q := hne q hq
      exact ⟨Nat.le_refl _, fun _ => by rw [← hsame]; exact ⟨rfl, rfl⟩, fun _ => by rw [← hsame]⟩

theorem OnceInv.setDone {i : Nat} (h : OnceInv s) (hi : s.owner i = some (.flag p)) :
    OnceInv (s.rawseti (.flag p) i (.num 1)) := by
  obtain ⟨free, hheld⟩ := h.held
  obtain ⟨hheld', howner, hslots, -⟩ := hheld.rawseti hi (.num 1)
  refine h.registry (rawseti_same ..) ⟨free, hheld'⟩ fun q i' j' hrefs hcalled => ?_
  obtain ⟨hi', hj', -, -⟩ := h.live q i' j' hrefs hcalled
  have hji : j' ≠ i := fun heq => by
    rw [heq, hi] at hj'
    cases hj'
  rw [howner, hslots, Function.update_of_ne hji]
  refine ⟨rfl, rfl, rfl, ?_⟩
  by_cases hii : i' = i
  · rw [hii, Function.update_self]
    exact .inr (by simp [Value.toInteger])
  · rw [Function.update_of_ne hii]
    exact .inl rfl

theorem Once.executorThrows (h : Once s) (hcalled : s.called p = false) :
    Within s (s.executorThrows p) ∧ (s.executorThrows p).thrown = s.thrown := by
  rw [State.executorThrows]
  split
  · exact ⟨h.within, rfl⟩
  case h_2 i j hrefs =>
      have huse := use_same s (.flag p) i
      have hset := rawseti_same (s.use (.flag p) i) (.flag p) i (.num 1)
      have hwithin : Within s (s.use (.flag p) i) := by
        refine h.within.registry huse fun hthrown => ?_
        have hinv := h.inv (huse.thrown ▸ hthrown)
        rw [use_owned (hinv.live p i j hrefs hcalled).1]
        exact hinv
      dsimp only
      split
      · refine ⟨hwithin.registry hset fun hthrown => ?_, hset.thrown.trans huse.thrown⟩
        have hthrown₁ : s.thrown = 0 := by rw [← hthrown, hset.thrown, huse.thrown]
        have hinv := h.inv hthrown₁
        have hi := (hinv.live p i j hrefs hcalled).1
        rw [use_owned hi]
        exact hinv.setDone hi
      · exact ⟨hwithin, huse.thrown⟩

/-- A callback settles the promise it belongs to. -/
theorem Within.settleSelf {s₀ : State} {q : Nat} {state : PState} (h : Within s₀ s) (v : Value)
    (hthrown : s.thrown = 0)
    (hself : s.thrown = 0 → Value.promise q = .promise p ∧ p < s.count ∧
      ∀ i j, (s.promises p).refs = some (i, j) →
        s.settles p = 0 ∧ (s.called p = false → (s.slots i).toInteger ≠ 0)) :
    Within s₀ (s.settle q state v) := by
  obtain ⟨hqp, hlt, hrefs⟩ := hself hthrown
  obtain rfl := Value.promise.inj hqp
  exact h.settle v fun hzero => (h.inv hzero).settle hlt hrefs

theorem Within.resolveSelf {s₀ : State} {self v : Value} (h : Within s₀ s)
    (hself : s.thrown = 0 → self = .promise p ∧ p < s.count ∧ ∀ i j, (s.promises p).refs = some (i, j) →
      s.settles p = 0 ∧ (s.called p = false → (s.slots i).toInteger ≠ 0)) :
    (resolve depth self v s).Holds (After (Within s₀) s) := by
  by_cases hq : ∃ q, self = .promise q
  · obtain ⟨q, rfl⟩ := hq
    by_cases hthrown : s.thrown = 0
    · cases depth with
      | zero =>
          rw [resolve]
          trivial
      | succ n =>
          rw [resolve]
          exact ((Within.stable s₀).keeps n).finale q _ (h.settleSelf v hthrown hself)
    · exact ((Within.stable s₀).keeps depth).resolve q v s h (.inr hthrown)
  · exact resolve_other (fun q hself => hq ⟨q, hself⟩) ⟨h, Nat.le_refl _⟩

theorem Within.rejectSelf {s₀ : State} {self v : Value} (h : Within s₀ s)
    (hself : s.thrown = 0 → self = .promise p ∧ p < s.count ∧ ∀ i j, (s.promises p).refs = some (i, j) →
      s.settles p = 0 ∧ (s.called p = false → (s.slots i).toInteger ≠ 0)) :
    (reject depth self v s).Holds (After (Within s₀) s) := by
  by_cases hq : ∃ q, self = .promise q
  · obtain ⟨q, rfl⟩ := hq
    by_cases hthrown : s.thrown = 0
    · cases depth with
      | zero =>
          rw [reject]
          trivial
      | succ n =>
          rw [reject]
          exact ((Within.stable s₀).keeps n).finale q _ (h.settleSelf v hthrown hself)
    · exact ((Within.stable s₀).keeps depth).reject q v s h (.inr hthrown)
  · exact reject_other (fun q hself => hq ⟨q, hself⟩) ⟨h, Nat.le_refl _⟩

/-- The state in which a callback that is not `done` settles its promise. -/
def State.started (s : State) (p i j : Nat) : State :=
  let s := ((s.use (.flag p) i).rawseti (.flag p) i (.num 1)).use (.self p) j
  s.aim p (s.slots j)

theorem Within.aim {s₀ : State} (h : Within s₀ s) (p : Nat) (self : Value)
    (hself : s.thrown = 0 → self = .promise p) :
    Within s₀ (s.aim p self) ∧ (s.aim p self).thrown = s.thrown := by
  rw [State.aim]
  split
  · exact ⟨h, rfl⟩
  case isFalse hstray =>
      exact ⟨⟨h.count, h.refs, h.called, h.target, h.kept, fun hthrown =>
        absurd (hself hthrown) hstray⟩, rfl⟩

/-- While no handler has thrown, the callback finds its promise, which was not settled before. -/
theorem Once.started {i j : Nat} (h : Once s) (hrefs : (s.promises p).refs = some (i, j))
    (hcalled : s.called p = false) (hdone : ((s.use (.flag p) i).slots i).toInteger = 0) :
    Within s (s.started p i j) ∧ (s.started p i j).thrown = s.thrown ∧
      ((s.started p i j).thrown = 0 → (s.started p i j).slots j = .promise p ∧
        p < (s.started p i j).count ∧ ∀ i' j', ((s.started p i j).promises p).refs = some (i', j') →
          (s.started p i j).settles p = 0 ∧
          ((s.started p i j).called p = false → ((s.started p i j).slots i').toInteger ≠ 0)) := by
  have huse := use_same s (.flag p) i
  have hset := rawseti_same (s.use (.flag p) i) (.flag p) i (.num 1)
  have huse' := use_same ((s.use (.flag p) i).rawseti (.flag p) i (.num 1)) (.self p) j
  have hthrown := huse'.thrown.trans (hset.thrown.trans huse.thrown)
  by_cases hzero : s.thrown = 0
  · have hinv := h.inv hzero
    obtain ⟨hi, hj, hslot, hsettled⟩ := hinv.live p i j hrefs hcalled
    obtain ⟨free, hheld⟩ := hinv.held
    obtain ⟨-, howner, hslots, -⟩ := hheld.rawseti hi (.num 1)
    have hji : j ≠ i := fun heq => by
      rw [heq, hi] at hj
      cases hj
    rw [use_owned hi] at hdone
    have hslot' : (s.rawseti (.flag p) i (.num 1)).slots j = .promise p := by
      rw [hslots, Function.update_of_ne hji, hslot]
    have heq : s.started p i j = s.rawseti (.flag p) i (.num 1) := by
      rw [State.started, use_owned hi, use_owned (howner.symm ▸ hj), State.aim, if_pos hslot']
    have hsame := rawseti_same s (.flag p) i (.num 1)
    rw [heq]
    refine ⟨h.within.registry hsame fun _ => hinv.setDone hi, hsame.thrown, fun _ => ⟨hslot', ?_, ?_⟩⟩
    · rw [hsame.count]
      by_contra hle
      rw [(hinv.unborn p (Nat.le_of_not_lt hle)).1] at hrefs
      cases hrefs
    · intro i' j' hrefs'
      rw [hsame.promises, hrefs] at hrefs'
      obtain ⟨rfl, rfl⟩ := Prod.mk.inj (Option.some.inj hrefs')
      rw [hsame.settles, hslots, Function.update_self]
      refine ⟨?_, fun _ => by simp [Value.toInteger]⟩
      by_contra hne
      exact hsettled hne hdone
  · have hvac : ∀ t : State, t.thrown = s.thrown → t.thrown = 0 → ∀ {P : Prop}, P := fun t ht ht0 =>
      absurd (ht ▸ ht0) hzero
    have h₁ := h.within.registry huse fun h0 => hvac _ huse.thrown h0
    have h₂ := h₁.registry hset fun h0 => hvac _ (hset.thrown.trans huse.thrown) h0
    have h₃ := h₂.registry huse' fun h0 => hvac _ hthrown h0
    obtain ⟨h₄, hthrown₄⟩ := h₃.aim p
      ((((s.use (.flag p) i).rawseti (.flag p) i (.num 1)).use (.self p) j).slots j) fun h0 => hvac _ hthrown h0
    exact ⟨h₄, hthrown₄.trans hthrown, fun h0 => hvac _ (hthrown₄.trans hthrown) h0⟩

/-- The resolve callback has been called. -/
theorem Within.marked {t : State} {i j : Nat} (h : Within s t) (hthrown : s.thrown ≤ t.thrown)
    (hrefs : (s.promises p).refs = some (i, j)) : Stepped s (t.markCalled p) := by
  refine ⟨⟨fun q d hd => ?_, fun hzero => ?_⟩, hthrown, fun _ => h.kept⟩
  · obtain ⟨hlt, hplain⟩ := h.target q d hd
    exact ⟨h.count ▸ hlt, (h.refs _).trans hplain⟩
  · have hinv := h.inv hzero
    obtain ⟨free, hheld⟩ := hinv.held
    have hcalled : ∀ q, q ≠ p → (t.markCalled p).called q = t.called q := fun q hq =>
      Function.update_of_ne hq ..
    have hself : (t.markCalled p).called p = true := Function.update_self ..
    refine ⟨⟨free, hheld.chain, hheld.mem, hheld.owned⟩, fun q i' j' hq hfalse => ?_, hinv.once,
      fun q hq => ?_, hinv.unsettled, hinv.strays⟩
    · have hqp : q ≠ p := fun heq => by
        rw [heq, hself] at hfalse
        cases hfalse
      rw [hcalled q hqp] at hfalse
      exact hinv.live q i' j' hq hfalse
    · have hqp : q ≠ p := by
        rintro rfl
        have hnone := (hinv.unborn q hq).1
        rw [h.refs, hrefs] at hnone
        cases hnone
      rw [hcalled q hqp]
      exact hinv.unborn q hq

/-- A slot of a promise that has no callbacks left to call is given back. -/
theorem OnceInv.unref {o : Owner} {r : Nat} (h : OnceInv s) (hr : s.owner r = some o)
    (hdead : ∀ q i j, (s.promises q).refs = some (i, j) → s.called q = false → i ≠ r ∧ j ≠ r) :
    OnceInv (s.unref o r) ∧ (s.unref o r).owner = Function.update s.owner r none := by
  obtain ⟨free, hheld⟩ := h.held
  obtain ⟨hheld', howner, hslots, -⟩ := hheld.unref hr
  refine ⟨h.registry (unref_same ..) ⟨_, hheld'⟩ fun q i j hrefs hcalled => ?_, howner⟩
  obtain ⟨hi, hj, -, -⟩ := h.live q i j hrefs hcalled
  obtain ⟨hir, hjr⟩ := hdead q i j hrefs hcalled
  rw [howner, Function.update_of_ne hir, Function.update_of_ne hjr]
  exact ⟨rfl, rfl, hslots j (by simp [hj]) hjr, .inl (hslots i (by simp [hi]) hir)⟩

theorem markCalled_unref (t : State) (p r : Nat) (o : Owner) :
    (t.unref o r).markCalled p = (t.markCalled p).unref o r := by
  have huse : (t.markCalled p).use o r = (t.use o r).markCalled p := by
    by_cases hr : t.owner r = some o
    · rw [use_owned hr]
      exact use_owned hr
    · rw [State.use, State.use, if_neg hr]
      exact if_neg hr
  rw [State.unref, State.unref, huse]
  rfl

theorem Stepped.registry {t : State} (h : Stepped s s') (hsame : SameButRegistry s' t)
    (hinv : s'.thrown = 0 → OnceInv t) : Stepped s t := by
  refine ⟨⟨?_, fun hzero => hinv (hsame.thrown ▸ hzero)⟩, hsame.thrown ▸ h.thrown, fun hzero q => ?_⟩
  · unfold Plain
    rw [hsame.promises, hsame.count]
    exact h.once.target
  · rw [hsame.settles, hsame.promises]
    exact h.kept (hsame.thrown ▸ hzero) q

/-- The slots of the callbacks are given back. -/
theorem Within.finished {t : State} {i j : Nat} (h : Within s t) (hthrown : s.thrown ≤ t.thrown)
    (hrefs : (s.promises p).refs = some (i, j)) (hcalled : s.called p = false) :
    Stepped s (((t.unref (.flag p) i).unref (.self p) j).markCalled p) := by
  have hmarked := h.marked hthrown hrefs
  have hsame₁ := unref_same (t.markCalled p) (.flag p) i
  have hsame₂ := unref_same ((t.markCalled p).unref (.flag p) i) (.self p) j
  rw [markCalled_unref, markCalled_unref]
  have hboth : t.thrown = 0 → OnceInv ((t.markCalled p).unref (.flag p) i) ∧
      OnceInv (((t.markCalled p).unref (.flag p) i).unref (.self p) j) := by
    intro hzero
    obtain ⟨hi, hj, -, -⟩ := (h.inv hzero).live p i j ((h.refs p).trans hrefs) (h.called ▸ hcalled)
    have hinv := hmarked.once.inv hzero
    -- A slot with the number of `p` on it is no slot of another promise.
    have hdead : ∀ q i' j', ((t.markCalled p).promises q).refs = some (i', j') →
        (t.markCalled p).called q = false → (i' ≠ i ∧ j' ≠ i) ∧ i' ≠ j ∧ j' ≠ j := by
      intro q i' j' hq hfalse
      have hqp : q ≠ p := fun heq => by
        rw [heq] at hfalse
        simp [State.markCalled] at hfalse
      obtain ⟨hi', hj', -, -⟩ := hinv.live q i' j' hq hfalse
      have howner : (t.markCalled p).owner = t.owner := rfl
      rw [howner] at hi' hj'
      refine ⟨⟨fun heq => ?_, fun heq => ?_⟩, fun heq => ?_, fun heq => ?_⟩
      · rw [heq, hi] at hi'
        exact hqp (Owner.flag.inj (Option.some.inj hi')).symm
      · rw [heq, hi] at hj'
        cases hj'
      · rw [heq, hj] at hi'
        cases hi'
      · rw [heq, hj] at hj'
        exact hqp (Owner.self.inj (Option.some.inj hj')).symm
    obtain ⟨hinv₁, howner₁⟩ := hinv.unref hi fun q i' j' hq hfalse => (hdead q i' j' hq hfalse).1
    have hji : j ≠ i := fun heq => by
      rw [heq, hi] at hj
      cases hj
    have hj₁ : ((t.markCalled p).unref (.flag p) i).owner j = some (.self p) := by
      rw [howner₁, Function.update_of_ne hji]
      exact hj
    refine ⟨hinv₁, (hinv₁.unref hj₁ fun q i' j' hq hfalse => ?_).1⟩
    rw [hsame₁.promises] at hq
    rw [hsame₁.called] at hfalse
    exact (hdead q i' j' hq hfalse).2
  have hstep₁ := hmarked.registry hsame₁ fun hzero => (hboth hzero).1
  exact hstep₁.registry hsame₂ fun hzero => (hboth (hsame₁.thrown ▸ hzero)).2

theorem Once.myResolve {v : Value} (h : Once s) (hcalled : s.called p = false)
    (hrefs : (s.promises p).refs.isSome) :
    (myResolve depth p v s).Holds fun t => Stepped s (t.markCalled p) := by
  obtain ⟨⟨i, j⟩, hrefs⟩ := Option.isSome_iff_exists.1 hrefs
  have hclean : ∀ r : Ret Unit, r.Holds (fun t => Within s t ∧ s.thrown ≤ t.thrown) →
      (r.andThen fun _ t => .ret () ((t.unref (.flag p) i).unref (.self p) j)).Holds
        fun t => Stepped s (t.markCalled p) := by
    intro r hr
    exact hr.andThen (fun _ ht => ht.1.marked ht.2 hrefs) fun _ _ ht =>
      ht.1.finished ht.2 hrefs hcalled
  have huse := use_same s (.flag p) i
  rw [Lua.myResolve, hrefs]
  dsimp only
  split
  · refine hclean _ ⟨h.within.registry huse fun hzero => ?_, Nat.le_of_eq huse.thrown.symm⟩
    have hinv := h.inv (huse.thrown ▸ hzero)
    rw [use_owned (hinv.live p i j hrefs hcalled).1]
    exact hinv
  case isFalse hdone =>
      obtain ⟨hwithin, hthrown, hself⟩ := h.started hrefs hcalled (not_not.1 hdone)
      have hresolve : (resolve depth ((s.started p i j).slots j) v (s.started p i j)).Holds _ :=
        hwithin.resolveSelf hself
      rw [State.started, aim_slots] at hresolve
      exact hclean _ (hresolve.mono fun t ht => ⟨ht.1, hthrown ▸ ht.2⟩)

theorem Once.myReject {v : Value} (h : Once s) (hcalled : s.called p = false) :
    (myReject depth p v s).Holds (Stepped s) := by
  rw [Lua.myReject]
  split
  · exact h.stay
  case h_2 i j hrefs =>
      have huse := use_same s (.flag p) i
      dsimp only
      split
      · refine (h.within.registry huse fun hzero => ?_).stepped (Nat.le_of_eq huse.thrown.symm)
        have hinv := h.inv (huse.thrown ▸ hzero)
        rw [use_owned (hinv.live p i j hrefs hcalled).1]
        exact hinv
      case isFalse hdone =>
          obtain ⟨hwithin, hthrown, hself⟩ := h.started hrefs hcalled (not_not.1 hdone)
          have hreject : (reject depth ((s.started p i j).slots j) v (s.started p i j)).Holds _ :=
            hwithin.rejectSelf hself
          rw [State.started, aim_slots] at hreject
          exact hreject.mono fun t ht => ht.1.stepped (hthrown ▸ ht.2)

theorem Once.thennext {f g : Option Fn} (h : Once s) :
    (thennext depth p f g s).Holds (Stepped s) := by
  have hnew := h.newPromise
  have hplain : Plain s.newPromise.2 s.newPromise.1 := by
    refine ⟨Nat.lt_succ_self _, ?_⟩
    show (Function.update s.promises s.count _ s.count).refs = none
    rw [Function.update_self]
  rw [Lua.thennext]
  refine Ret.Holds.andThen (P := Stepped s) ?_ (fun _ h' => h') fun _ _ h' => h'
  refine (((Within.stable s.newPromise.2).keeps depth).handle p _ _ hnew.once.within ?_).mono ?_
  · intro d hd
    rw [← Option.some.inj hd]
    exact hplain
  · exact fun t ht => hnew.trans (ht.1.stepped ht.2)

/-- A promise's callbacks are called only until its resolve callback has been called. -/
def Step.InTime (s : State) : Step → Prop
  | .resolve p _ => s.called p = false
  | .reject p _ => s.called p = false
  | .throw => ∀ p rest, s.running = p :: rest → s.called p = false
  | _ => True

theorem Once.step {c : Step} (h : Once s) (hc : c.InTime s) (hrun : step depth s c = .ok s') :
    Stepped s s' := by
  cases step_effect hrun with
  | refused => exact h.stay
  | new =>
      have hnew := h.newPromise
      refine hnew.trans (hnew.once.startExecutor (Nat.lt_succ_self _) (fun hzero => ?_) (fun q d hd => ?_)
        ?_)
      · exact ((h.inv hzero).unborn s.count (Nat.le_refl _)).2.2
      · exact Nat.ne_of_lt (h.newPromise_target q d hd)
      · show (Function.update s.promises s.count _ s.count).refs = none
        rw [Function.update_self]
  | plain => exact h.newPromise
  | leave =>
      refine ⟨⟨h.target, fun hzero => ?_⟩, Nat.le_refl _, fun _ => Kept.refl s⟩
      exact (h.inv hzero).congr rfl rfl rfl rfl rfl rfl rfl rfl
  | @throw p rest hrunning =>
      obtain ⟨hwithin, hthrown⟩ := h.executorThrows (hc p rest hrunning)
      have hstep := hwithin.stepped (Nat.le_of_eq hthrown.symm)
      refine ⟨⟨hstep.once.target, fun hzero => ?_⟩, hstep.thrown, hstep.kept⟩
      exact (hstep.once.inv hzero).congr rfl rfl rfl rfl rfl rfl rfl rfl
  | resolve hv hrefs hcall => exact (h.myResolve hc hrefs).of_caught hcall
  | reject hv hcall => exact (h.myReject hc).of_caught hcall
  | next hp hcall => exact h.thennext.of_caught hcall
  | @ref v hv =>
      have hsame := ref_same s .foreign v
      refine (h.within.registry hsame fun hzero => ?_).stepped (Nat.le_of_eq hsame.thrown.symm)
      have hinv := h.inv (hsame.thrown ▸ hzero)
      obtain ⟨free, hheld⟩ := hinv.held
      exact hinv.taken hsame (hheld.ref _ _)
  | @unref r hr =>
      have hsame := unref_same s .foreign r
      refine (h.within.registry hsame fun hzero => ?_).stepped (Nat.le_of_eq hsame.thrown.symm)
      have hinv := h.inv (hsame.thrown ▸ hzero)
      refine (hinv.unref hr fun q i j hrefs hcalled => ?_).1
      obtain ⟨hi, hj, -, -⟩ := hinv.live q i j hrefs hcalled
      constructor
      · rintro rfl
        rw [hr] at hi
        cases hi
      · rintro rfl
        rw [hr] at hj
        cases hj

end Steps

/-! ## Runs -/

theorem Once.fresh : Once fresh := by
  refine ⟨fun q d hd => absurd hd (by simp [Lua.fresh, Deferreds.toList]), fun _ => ?_⟩
  refine ⟨⟨[], rfl, fun r => ?_, fun r hr => absurd rfl hr⟩, fun p i j hrefs => ?_, fun p hp => absurd rfl hp,
    fun p _ => ⟨rfl, rfl, rfl⟩, fun p _ => ⟨rfl, rfl⟩, rfl⟩
  · constructor
    · exact fun hr => absurd hr (by simp)
    · rintro ⟨hpos, hle, -⟩
      exact absurd hpos (Nat.not_lt.2 hle)
  · cases hrefs

theorem Once.steps {depth : Nat} {cs : List Step} {s s' : State} (h : Once s)
    (hsafe : Run.AllSafe (Lua.step depth) (fun s c => c.InTime s) s cs)
    (hrun : Lua.steps depth s cs = .ok s') : Stepped s s' := by
  induction cs generalizing s with
  | nil =>
      obtain rfl := Except.ok.inj hrun
      exact h.stay
  | cons c cs ih =>
      obtain ⟨s₁, hs₁, hrest⟩ := Run.cons_eq_ok.1 hrun
      obtain ⟨hc, hcs⟩ := hsafe s₁ hs₁
      have hstep := h.step hc hs₁
      exact hstep.trans (ih hstep.once hcs hrest)

/-- The run `cs` that has led to `s` settled each promise of an executor once, and its callbacks settled
    nothing else. -/
def SettledOnce (depth : Nat) (cs : List Step) (s : State) : Prop :=
  s.strays = 0 ∧ ∀ pre, pre <+: cs → ∀ s₁, Lua.steps depth fresh pre = .ok s₁ →
    ∀ p, (s₁.promises p).refs.isSome → (s₁.promises p).state ≠ .pending →
      (s.promises p).state = (s₁.promises p).state ∧ (s.promises p).value = (s₁.promises p).value

/-- A promise settles once in every run in which no callback is called after its resolve callback and no
    handler throws. -/
theorem settles_once {depth : Nat} {cs : List Step} {s : State} (hrun : Lua.steps depth fresh cs = .ok s)
    (hsafe : Run.AllSafe (step depth) (fun s c => c.InTime s) fresh cs) (hthrown : s.thrown = 0) :
    SettledOnce depth cs s := by
  have hend := Once.fresh.steps hsafe hrun
  refine ⟨(hend.once.inv hthrown).strays, fun pre hpre s₁ hs₁ p hrefs hpending => ?_⟩
  obtain ⟨post, rfl⟩ := hpre
  obtain ⟨s₂, hs₂, hpost⟩ := Run.append_eq_ok.1 hrun
  obtain rfl := Except.ok.inj (hs₁.symm.trans hs₂)
  obtain ⟨hsafe₁, hsafe₂⟩ := hsafe.append hs₂
  have hfirst := Once.fresh.steps hsafe₁ hs₂
  have hsecond := hfirst.once.steps hsafe₂ hpost
  have hle := hsecond.thrown
  have hinv₁ := hfirst.once.inv (by omega)
  obtain ⟨hmono, hsame, hkeep⟩ := hsecond.kept hthrown p
  have hne : (s₁.promises p).refs ≠ none := Option.isSome_iff_ne_none.1 hrefs
  -- It was settled before, and it has never been settled twice.
  have hsettled : s₁.settles p ≠ 0 := fun hzero => hpending (hinv₁.unsettled p hzero).1
  have honce := (hend.once.inv hthrown).once p (hkeep hne ▸ hne)
  exact hsame (by omega)

instance (s : State) : ∀ c : Step, Decidable (c.InTime s)
  | .resolve p _ => inferInstanceAs (Decidable (s.called p = false))
  | .reject p _ => inferInstanceAs (Decidable (s.called p = false))
  | .throw => decidable_of_iff (∀ p ∈ s.running.head?, s.called p = false)
      ⟨fun h p rest hp => h p (by rw [hp]; rfl), fun h p hp => by
        obtain ⟨rest, hrest⟩ := List.head?_eq_some_iff.1 hp
        exact h p rest hrest⟩
  | .new => isTrue trivial
  | .plain => isTrue trivial
  | .leave => isTrue trivial
  | .next _ _ _ => isTrue trivial
  | .ref _ => isTrue trivial
  | .unref _ => isTrue trivial

/-- A promise is resolved, with a handler on it before and another one after that. Other code takes a slot
    that it has given back. Then a second promise is rejected twice and resolved. -/
def settledRun : List Step :=
  [.new, .next 0 (some fun _ => .ok (.num 6)) none, .resolve 0 (.num 5), .leave,
    .next 0 (some fun _ => .ok .nil) none, .ref (.num 7), .new, .reject 3 (.num 8), .reject 3 (.num 9),
    .resolve 3 (.num 1)]

/-- Each promise keeps what it was settled with first. -/
theorem settles_once_kept : ∃ s, Lua.steps 9 fresh settledRun = .ok s ∧ SettledOnce 9 settledRun s ∧
    (s.promises 0).state = .resolved ∧ (s.promises 0).value = .num 5 ∧
    (s.promises 3).state = .rejected ∧ (s.promises 3).value = .num 8 := by
  have hthrown : (Lua.steps 9 fresh settledRun).map State.thrown = .ok 0 := by decide +kernel
  have hend : (Lua.steps 9 fresh settledRun).map (fun s =>
      ((s.promises 0).state, (s.promises 0).value, (s.promises 3).state, (s.promises 3).value)) =
      .ok (.resolved, .num 5, .rejected, .num 8) := by decide +kernel
  obtain ⟨s, hrun, hs⟩ := map_eq_ok.1 hend
  simp only [Prod.mk.injEq] at hs
  exact ⟨s, hrun, settles_once hrun (by decide +kernel) (of_map_eq_ok hthrown hrun), hs⟩

/-- A promise is resolved and then rejected: the second callback applies `reject` to a number. -/
theorem not_settled_once : ¬ ∀ depth cs s, 9 ≤ depth → Lua.steps depth fresh cs = .ok s →
    SettledOnce depth cs s := by
  intro hall
  let cs : List Step := [.new, .resolve 0 (.num 5), .reject 0 (.num 6)]
  have hend : (Lua.steps 9 fresh cs).map State.strays = .ok 1 := by decide +kernel
  obtain ⟨s, hrun, hstray⟩ := map_eq_ok.1 hend
  have hnone := (hall 9 cs s (Nat.le_refl 9) hrun).1
  rw [hstray] at hnone
  cases hnone

end Yaos.Lua
