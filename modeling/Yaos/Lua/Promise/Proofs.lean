import Yaos.Lua.Promise

set_option autoImplicit false

/-! # Invariants of promises

`resolve`, `reject`, `finale` and `handle` call each other, and what they do to the state are a few
primitive changes. An invariant that these keep is kept by all of them. -/

namespace Yaos.Lua

/-- What holds of the state in which a function returns or through which it throws. -/
def Ret.Holds {α : Type} (P : State → Prop) : Ret α → Prop
  | .ret _ s => P s
  | .raise _ s => P s
  | .fault _ => True

/-- What is seen of the state in which a function returns. -/
def Ret.look {α β : Type} (see : State → β) : Ret α → Option β
  | .ret _ s => some (see s)
  | _ => none

theorem Ret.Holds.mono {α : Type} {P Q : State → Prop} {r : Ret α} (h : r.Holds P)
    (hPQ : ∀ s, P s → Q s) : r.Holds Q := by
  cases r with
  | ret a s => exact hPQ s h
  | raise e s => exact hPQ s h
  | fault f => trivial

theorem Ret.Holds.andThen {α β : Type} {P Q : State → Prop} {r : Ret α} {k : α → State → Ret β}
    (h : r.Holds P) (hPQ : ∀ s, P s → Q s) (hk : ∀ a s, P s → (k a s).Holds Q) :
    (r.andThen k).Holds Q := by
  cases r with
  | ret a s => exact hk a s h
  | raise e s => exact hPQ s h
  | fault f => trivial

theorem Ret.andThen_eq_ret {α β : Type} {r : Ret α} {k : α → State → Ret β} {b : β} {s : State} :
    r.andThen k = .ret b s ↔ ∃ a t, r = .ret a t ∧ k a t = .ret b s := by
  constructor
  · intro h
    cases r with
    | ret a t => exact ⟨a, t, rfl, h⟩
    | raise e t => cases h
    | fault f => cases h
  · rintro ⟨a, t, rfl, h⟩
    exact h

theorem Ret.Holds.and {α : Type} {P Q : State → Prop} {r : Ret α} (h : r.Holds P) (hQ : r.Holds Q) :
    r.Holds fun s => P s ∧ Q s := by
  cases r with
  | ret a s => exact ⟨h, hQ⟩
  | raise e s => exact ⟨h, hQ⟩
  | fault f => trivial

theorem Ret.Holds.of_caught {α : Type} {P : State → Prop} {r : Ret α} {s : State} (h : r.Holds P)
    (hr : r.caught = .ok s) : P s := by
  cases r with
  | ret a s' => exact Except.ok.inj hr ▸ h
  | raise e s' => exact Except.ok.inj hr ▸ h
  | fault f => cases hr

/-- A promise that stands for no other is the end of its chain. -/
theorem follow_settled {s : State} {p fuel : Nat} (hp : (s.promises p).state ≠ .resolving) :
    s.follow (fuel + 1) p = some p := by
  rw [State.follow, if_neg hp]

/-! ## The registry changes nothing else -/

section Registry

variable (s : State) (o : Owner) (r : Nat) (v : Value)

/-- `s'` differs from `s` in the registry only. -/
structure SameButRegistry (s s' : State) : Prop where
  promises : s'.promises = s.promises
  count : s'.count = s.count
  errerr : s'.errerr = s.errerr
  running : s'.running = s.running
  called : s'.called = s.called
  settles : s'.settles = s.settles
  strays : s'.strays = s.strays
  thrown : s'.thrown = s.thrown
  calls : s'.calls = s.calls

theorem use_same : SameButRegistry s (s.use o r) := by
  rw [State.use]
  split
  · exact ⟨rfl, rfl, rfl, rfl, rfl, rfl, rfl, rfl, rfl⟩
  · exact ⟨rfl, rfl, rfl, rfl, rfl, rfl, rfl, rfl, rfl⟩

theorem use_slots : (s.use o r).slots = s.slots := by
  rw [State.use]
  split <;> rfl

theorem ref_same : SameButRegistry s (s.ref o v).2 := by
  rw [State.ref]
  dsimp only
  split
  · exact ⟨rfl, rfl, rfl, rfl, rfl, rfl, rfl, rfl, rfl⟩
  · exact ⟨rfl, rfl, rfl, rfl, rfl, rfl, rfl, rfl, rfl⟩

theorem unref_same : SameButRegistry s (s.unref o r) := by
  obtain ⟨h₁, h₂, h₃, h₄, h₅, h₆, h₇, h₈, h₉⟩ := use_same s o r
  exact ⟨h₁, h₂, h₃, h₄, h₅, h₆, h₇, h₈, h₉⟩

theorem rawseti_same : SameButRegistry s (s.rawseti o r v) := by
  obtain ⟨h₁, h₂, h₃, h₄, h₅, h₆, h₇, h₈, h₉⟩ := use_same s o r
  exact ⟨h₁, h₂, h₃, h₄, h₅, h₆, h₇, h₈, h₉⟩

theorem aim_slots (s : State) (p : Nat) (self : Value) : (s.aim p self).slots = s.slots := by
  rw [State.aim]
  split <;> rfl

end Registry

section Slots

variable {s : State} {o : Owner} {r : Nat} {v : Value} {P : Value → Prop}

theorem update_slots {slots : Nat → Value} (h : ∀ r, P (slots r)) (hv : P v) (t : Nat) :
    ∀ r, P (Function.update slots t v r) := by
  intro r
  by_cases hr : r = t
  · subst hr
    rw [Function.update_self]
    exact hv
  · rw [Function.update_of_ne hr]
    exact h r

theorem ref_slots (h : ∀ r, P (s.slots r)) (hv : P v) : ∀ r, P ((s.ref o v).2.slots r) := by
  rw [State.ref]
  dsimp only
  split
  · exact update_slots (update_slots h (h _) _) hv _
  · exact update_slots h hv _

theorem unref_slots (h : ∀ r, P (s.slots r)) (hr : P (.num r)) : ∀ t, P ((s.unref o r).slots t) := by
  have huse : ∀ t, P ((s.use o r).slots t) := by
    rw [use_slots]
    exact h
  exact update_slots (update_slots huse (huse _) _) hr _

theorem rawseti_slots (h : ∀ r, P (s.slots r)) (hv : P v) : ∀ t, P ((s.rawseti o r v).slots t) := by
  have huse : ∀ t, P ((s.use o r).slots t) := by
    rw [use_slots]
    exact h
  exact update_slots huse hv _

end Slots

/-! ## Primitive changes -/

/-- A handler of a deferred in `Hand` may be called. -/
def MayCall (Hand : Deferred → Prop) : Prop := ∃ d state, Hand d ∧ d.selected state ≠ none

/-- The primitive changes keep `I`. `Hand` holds of the deferreds on a promise and of those at work,
    `May` of the promises that may be settled. -/
structure Stable (Hand : Deferred → Prop) (May : State → Nat → Prop) (I : State → Prop) : Prop where
  hand : ∀ {s p d}, I s → d ∈ (s.promises p).deferreds.toList → Hand d
  target : ∀ {s d}, I s → Hand d → May s d.promise
  settle : ∀ {s p state} v, I s → May s p → state ≠ .pending → I (s.settle p state v)
  setDeferreds : ∀ {s p ds}, I s → (∀ d ∈ ds.toList, Hand d) → I (s.setDeferreds p ds)
  errerr : ∀ {s} b, I s → I { s with errerr := b }
  call : ∀ {s q d}, MayCall Hand → I s → (s.promises q).state ≠ .pending → I (s.callHandler q d).2
  throws : ∀ {s}, MayCall Hand → I s → I { s with thrown := s.thrown + 1 }
  slot : ∀ {s r p}, MayCall Hand → I s → s.thrown ≠ 0 → s.slots r = .promise p → May s p
  use : ∀ {s o r}, MayCall Hand → I s → s.thrown ≠ 0 → I (s.use o r)
  unref : ∀ {s o r}, MayCall Hand → I s → s.thrown ≠ 0 → I (s.unref o r)

section Stable

variable {Hand : Deferred → Prop} {May : State → Nat → Prop} {I : State → Prop}

/-- The invariant still holds, and no thrown error is forgotten. -/
def After (I : State → Prop) (s s' : State) : Prop := I s' ∧ s.thrown ≤ s'.thrown

theorem After.trans {s s₁ s' : State} (h : s.thrown ≤ s₁.thrown) (h' : After I s₁ s') : After I s s' :=
  ⟨h'.1, Nat.le_trans h h'.2⟩

/-- What the functions keep with a given depth of the stack. -/
structure KeepsAt (Hand : Deferred → Prop) (May : State → Nat → Prop) (I : State → Prop) (n : Nat) :
    Prop where
  resolve : ∀ p v s, I s → May s p → (resolve n (.promise p) v s).Holds (After I s)
  reject : ∀ p v s, I s → May s p → (reject n (.promise p) v s).Holds (After I s)
  finale : ∀ p s, I s → (finale n p s).Holds (After I s)
  handle : ∀ p x s, I s → (∀ d, x = some d → Hand d) → (handle n p x s).Holds (After I s)
  handleResolved : ∀ q x s, I s → (∀ d, x = some d → Hand d) → (s.promises q).state ≠ .pending →
    (handleResolved n q x s).Holds (After I s)
  errorHandle : ∀ call r e s, MayCall Hand → I s → s.thrown ≠ 0 →
    (errorHandle n call r e s).Holds (After I s)

theorem finaleLoop_keeps {h : Deferred → State → Ret Nat} {ds : List Deferred} {s : State}
    (hh : ∀ d ∈ ds, ∀ s, I s → (h d s).Holds (After I s)) (hs : I s) :
    (finaleLoop h ds s).Holds (After I s) := by
  induction ds generalizing s with
  | nil => exact ⟨hs, Nat.le_refl _⟩
  | cons d ds ih =>
      refine (hh d (by simp) s hs).andThen (fun _ h => h) fun extra s₁ h₁ => ?_
      split
      · exact (ih (fun d hd => hh d (by simp [hd])) h₁.1).mono fun s' h' => h'.trans h₁.2
      · exact h₁

/-- `reject` of something else changes nothing. -/
theorem reject_other {P : State → Prop} {n : Nat} {v e : Value} {s : State}
    (hv : ∀ p, v ≠ .promise p) (hs : P s) : (reject n v e s).Holds P := by
  cases n with
  | zero =>
      rw [reject]
      trivial
  | succ n =>
      rw [reject]
      · exact hs
      · exact hv

theorem resolve_other {P : State → Prop} {n : Nat} {self v : Value} {s : State}
    (hself : ∀ p, self ≠ .promise p) (hs : P s) : (resolve n self v s).Holds P := by
  cases n with
  | zero =>
      rw [resolve]
      trivial
  | succ n =>
      rw [resolve]
      · split
        · exact hs
        · trivial
      · exact hself

theorem register_thrown (s : State) (q : Nat) (x : Option Deferred) :
    (s.register q x).2.thrown = s.thrown := by
  unfold State.register
  split <;> rfl

theorem Stable.register (hstable : Stable Hand May I) {s : State} {q : Nat} {x : Option Deferred}
    (hs : I s) (hx : ∀ d, x = some d → Hand d) : I (s.register q x).2 := by
  have hlist : ∀ d ∈ x.toList, Hand d := fun d hd => hx d (by simpa using hd)
  have hold : ∀ d ∈ (s.promises q).deferreds.toList, Hand d := fun d hd => hstable.hand hs hd
  rw [State.register]
  split
  case h_1 => exact hstable.setDeferreds hs hlist
  case h_2 y hy =>
      rw [hy] at hold
      refine hstable.setDeferreds hs fun d hd => ?_
      rcases List.mem_append.1 hd with hd | hd
      · exact hold d hd
      · exact hlist d hd
  case h_3 ds hds =>
      rw [hds] at hold
      refine hstable.setDeferreds hs fun d hd => ?_
      rcases List.mem_append.1 hd with hd | hd
      · exact hold d hd
      · exact hlist d hd

theorem Stable.keepsAt_zero : KeepsAt Hand May I 0 := by
  refine ⟨fun p v s _ _ => ?_, fun p v s _ _ => ?_, fun p s _ => ?_, fun p x s _ _ => ?_,
    fun q x s _ _ _ => ?_, fun call r e s _ _ _ => ?_⟩
  · rw [resolve]
    trivial
  · rw [reject]
    trivial
  · rw [finale]
    trivial
  · rw [handle]
    trivial
  · rw [handleResolved]
    trivial
  · rw [errorHandle]
    trivial

section Step

variable {n : Nat} (hstable : Stable Hand May I) (h : KeepsAt Hand May I n) {s : State}
include hstable h

theorem Stable.settle_finale {p : Nat} {state : PState} {v : Value} (hs : I s) (hp : May s p)
    (hstate : state ≠ .pending) : (finale n p (s.settle p state v)).Holds (After I s) :=
  h.finale p (s.settle p state v) (hstable.settle v hs hp hstate)

theorem Stable.keeps_finale {p : Nat} (hs : I s) : (finale (n + 1) p s).Holds (After I s) := by
  have hhand : ∀ d ∈ (s.promises p).deferreds.toList, Hand d := fun d hd => hstable.hand hs hd
  rw [finale]
  cases hds : (s.promises p).deferreds with
  | zero => exact ⟨hs, Nat.le_refl _⟩
  | one d =>
      rw [hds] at hhand
      refine (h.handle p d s hs fun d' hd' => hhand d' (by simp [Deferreds.toList, hd'])).andThen
        (fun _ h' => h') fun _ s₁ h₁ => ?_
      exact ⟨hstable.setDeferreds h₁.1 (by simp [Deferreds.toList]), h₁.2⟩
  | table ds =>
      rw [hds] at hhand
      refine finaleLoop_keeps (fun d hd s₁ hs₁ => h.handle p (some d) s₁ hs₁ ?_) hs
      intro d' hd'
      rw [← Option.some.inj hd']
      exact hhand d hd

theorem Stable.keeps_handle {p : Nat} {x : Option Deferred} (hs : I s)
    (hx : ∀ d, x = some d → Hand d) : (handle (n + 1) p x s).Holds (After I s) := by
  rw [handle]
  split
  · trivial
  case h_2 q hq =>
      split
      case isTrue =>
          exact ⟨hstable.register hs hx, Nat.le_of_eq (register_thrown s q x).symm⟩
      case isFalse hpending =>
          exact (h.handleResolved q x s hs hx hpending).andThen (fun _ h' => h') fun _ _ h₁ => h₁

theorem Stable.keeps_errorHandle {call r : Nat} {e : Value} (hcall : MayCall Hand) (hs : I s)
    (hthrown : s.thrown ≠ 0) : (errorHandle (n + 1) call r e s).Holds (After I s) := by
  have huse : I (s.use (.handler call) r) := hstable.use hcall hs hthrown
  have hsame := (use_same s (.handler call) r).thrown
  have hslots := use_slots s (.handler call) r
  have hreject : (reject n (s.slots r) e (s.use (.handler call) r)).Holds (After I s) := by
    by_cases hv : ∃ p, s.slots r = .promise p
    · obtain ⟨p, hv⟩ := hv
      rw [← hsame] at hthrown
      have hmay := hstable.slot (r := r) hcall huse hthrown (hslots ▸ hv)
      rw [hv]
      exact (h.reject p e _ huse hmay).mono fun s' h' => ⟨h'.1, hsame ▸ h'.2⟩
    · exact reject_other (fun p hp => hv ⟨p, hp⟩) ⟨huse, Nat.le_of_eq hsame.symm⟩
  have hlater : ∀ s' : State, s.thrown ≤ s'.thrown → s'.thrown ≠ 0 := fun s' hle => by omega
  rw [errorHandle]
  cases hr : reject n (s.slots r) e (s.use (.handler call) r) with
  | fault f => trivial
  | ret a s₁ =>
      rw [hr] at hreject
      refine ⟨hstable.unref hcall hreject.1 (hlater s₁ hreject.2), ?_⟩
      rw [(unref_same s₁ (.handler call) r).thrown]
      exact hreject.2
  | raise e' s₁ =>
      rw [hr] at hreject
      dsimp only
      split
      · exact hreject
      · exact (h.errorHandle call r e' _ hcall (hstable.errerr true hreject.1)
          (hlater s₁ hreject.2)).mono fun s' h' => h'.trans hreject.2

theorem Stable.keeps_handleResolved {q : Nat} {x : Option Deferred} (hs : I s)
    (hx : ∀ d, x = some d → Hand d) (hq : (s.promises q).state ≠ .pending) :
    (handleResolved (n + 1) q x s).Holds (After I s) := by
  cases x with
  | none =>
      rw [handleResolved]
      exact ⟨hs, Nat.le_refl _⟩
  | some d =>
      have hd := hx d rfl
      rw [handleResolved]
      dsimp only
      cases hsel : d.selected (s.promises q).state with
      | none =>
          dsimp only
          split
          · exact h.resolve d.promise _ s hs (hstable.target hs hd)
          · exact h.reject d.promise _ s hs (hstable.target hs hd)
      | some f =>
          have hcall : MayCall Hand := ⟨d, (s.promises q).state, hd, by simp [hsel]⟩
          have hs₁ : I (s.callHandler q d).2 := hstable.call hcall hs hq
          have hsame : (s.callHandler q d).2.thrown = s.thrown :=
            (ref_same s (.handler s.calls.length) (.promise q)).thrown
          dsimp only
          cases f (s.promises q).value with
          | ok v =>
              refine (h.resolve d.promise v _ hs₁ (hstable.target hs₁ hd)).mono fun s' h' => ?_
              exact ⟨h'.1, hsame ▸ h'.2⟩
          | error e =>
              have hs₂ := hstable.throws hcall hs₁
              dsimp only
              split
              · refine ⟨hstable.errerr false hs₂, ?_⟩
                show s.thrown ≤ (s.callHandler q d).2.thrown + 1
                omega
              · refine (h.errorHandle s.calls.length (s.callHandler q d).1 e _ hcall
                  (hstable.errerr true hs₂) (Nat.succ_ne_zero _)).andThen
                  (Q := After I s) (fun s' h' => ?_) fun _ s' h' => ?_
                · have hle : (s.callHandler q d).2.thrown + 1 ≤ s'.thrown := h'.2
                  exact ⟨h'.1, by omega⟩
                · have hle : (s.callHandler q d).2.thrown + 1 ≤ s'.thrown := h'.2
                  refine ⟨hstable.errerr false h'.1, ?_⟩
                  show s.thrown ≤ s'.thrown
                  omega

end Step

/-- An invariant that the primitive changes keep is kept by all functions, for every depth. -/
theorem Stable.keeps (hstable : Stable Hand May I) (n : Nat) : KeepsAt Hand May I n := by
  induction n with
  | zero => exact Stable.keepsAt_zero
  | succ n ih =>
      refine ⟨fun p v s hs hp => ?_, fun p v s hs hp => ?_, fun p s hs => hstable.keeps_finale ih hs,
        fun p x s hs hx => hstable.keeps_handle ih hs hx,
        fun q x s hs hx hq => hstable.keeps_handleResolved ih hs hx hq,
        fun call r e s hcall hs ht => hstable.keeps_errorHandle ih hcall hs ht⟩
      · rw [resolve]
        refine hstable.settle_finale ih hs hp ?_
        split
        · simp
        · simp
      · rw [reject]
        exact hstable.settle_finale ih hs hp (by simp)

end Stable

/-! ## Steps -/

/-- What a step does to the state. -/
inductive Effect (depth : Nat) (s : State) : Step → State → Prop
  /-- The promise or the value is none that Lua code can have. -/
  | refused (c : Step) : Effect depth s c s
  | new : Effect depth s .new (s.newPromise.2.startExecutor s.count)
  | plain : Effect depth s .plain s.newPromise.2
  | leave : Effect depth s .leave { s with running := s.running.tail }
  | throw {p : Nat} {rest : List Nat} (hrunning : s.running = p :: rest) :
      Effect depth s .throw { s.executorThrows p with running := rest }
  | resolve {p : Nat} {v : Value} {t : State} (hv : s.Exists v) (hrefs : (s.promises p).refs.isSome)
      (hcall : (myResolve depth p v s).caught = .ok t) : Effect depth s (.resolve p v) (t.markCalled p)
  | reject {p : Nat} {v : Value} {t : State} (hv : s.Exists v)
      (hcall : (myReject depth p v s).caught = .ok t) : Effect depth s (.reject p v) t
  | next {p : Nat} {f g : Option Fn} {t : State} (hp : p < s.count)
      (hcall : (thennext depth p f g s).caught = .ok t) : Effect depth s (.next p f g) t
  | ref {v : Value} (hv : s.Exists v) : Effect depth s (.ref v) (s.ref .foreign v).2
  | unref {r : Nat} (hr : s.owner r = some .foreign) : Effect depth s (.unref r) (s.unref .foreign r)

theorem step_effect {depth : Nat} {s s' : State} {c : Step} (h : step depth s c = .ok s') :
    Effect depth s c s' := by
  cases c with
  | new =>
      obtain rfl := Except.ok.inj h
      exact .new
  | plain =>
      obtain rfl := Except.ok.inj h
      exact .plain
  | leave =>
      obtain rfl := Except.ok.inj h
      exact .leave
  | throw =>
      rw [step] at h
      split at h
      case h_1 =>
          obtain rfl := Except.ok.inj h
          exact .refused _
      case h_2 p rest hrunning =>
          obtain rfl := Except.ok.inj h
          exact .throw hrunning
  | resolve p v =>
      rw [step] at h
      split at h
      case isTrue hguard =>
          obtain ⟨t, hcall, h⟩ := bind_eq_ok.1 h
          obtain rfl := Except.ok.inj h
          exact .resolve hguard.1 hguard.2 hcall
      case isFalse =>
          obtain rfl := Except.ok.inj h
          exact .refused _
  | reject p v =>
      rw [step] at h
      split at h
      case isTrue hv => exact .reject hv h
      case isFalse =>
          obtain rfl := Except.ok.inj h
          exact .refused _
  | next p f g =>
      rw [step] at h
      split at h
      case isTrue hp => exact .next hp h
      case isFalse =>
          obtain rfl := Except.ok.inj h
          exact .refused _
  | ref v =>
      rw [step] at h
      split at h
      case isTrue hv =>
          obtain rfl := Except.ok.inj h
          exact .ref hv.1
      case isFalse =>
          obtain rfl := Except.ok.inj h
          exact .refused _
  | unref r =>
      rw [step] at h
      split at h
      case isTrue hr =>
          obtain rfl := Except.ok.inj h
          exact .unref hr
      case isFalse =>
          obtain rfl := Except.ok.inj h
          exact .refused _

end Yaos.Lua
