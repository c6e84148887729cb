import Mathlib.Data.List.Nodup
import Yaos.Lua.Promise.Proofs

set_option autoImplicit false

/-! # Handlers that are nil

The promises that wait for others make a forest: `next` gives each handler a promise of its own, and
only the handler settles it. A promise whose handlers are nil hands its state and value down the tree.
The proofs carry a list of the handlers that the calls on the C stack still have to run. -/

namespace Yaos.Lua

/-- The function returns and `P` holds then, or it never comes back. -/
def Ret.Comes {α : Type} (P : α → State → Prop) : Ret α → Prop
  | .ret a s => P a s
  | .raise _ _ => False
  | .fault _ => True

theorem Ret.Comes.andThen {α β : Type} {P : α → State → Prop} {Q : β → State → Prop} {r : Ret α}
    {k : α → State → Ret β} (h : r.Comes P) (hk : ∀ a s, P a s → (k a s).Comes Q) :
    (r.andThen k).Comes Q := by
  cases r with
  | ret a s => exact hk a s h
  | raise e s => exact h.elim
  | fault f => trivial

theorem Ret.Comes.mono {α : Type} {P Q : α → State → Prop} {r : Ret α} (h : r.Comes P)
    (hPQ : ∀ a s, P a s → Q a s) : r.Comes Q := by
  cases r with
  | ret a s => exact hPQ a s h
  | raise e s => exact h
  | fault f => trivial

theorem Ret.Comes.of_caught {α : Type} {P : α → State → Prop} {r : Ret α} {s : State} (h : r.Comes P)
    (hr : r.caught = .ok s) : ∃ a, P a s := by
  cases r with
  | ret a s' => exact ⟨a, Except.ok.inj hr ▸ h⟩
  | raise e s' => exact h.elim
  | fault f => cases hr

theorem PState.settled {state : PState} (hpending : state ≠ .pending) (hresolving : state ≠ .resolving) :
    state = .resolved ∨ state = .rejected := by
  cases state with
  | pending => exact absurd rfl hpending
  | resolving => exact absurd rfl hresolving
  | resolved => exact .inl rfl
  | rejected => exact .inr rfl

/-! ## Promises that wait for others -/

/-- The handlers that a pending promise has. -/
def State.waiting (s : State) (x : Nat) : List Deferred :=
  if (s.promises x).state = .pending then (s.promises x).deferreds.toList else []

theorem waiting_pending {s : State} {x : Nat} (h : (s.promises x).state = .pending) :
    s.waiting x = (s.promises x).deferreds.toList := if_pos h

theorem waiting_settled {s : State} {x : Nat} (h : (s.promises x).state ≠ .pending) :
    s.waiting x = [] := if_neg h

/-- A pending promise that only a handler can settle. -/
structure Open (s : State) (t : Nat) : Prop where
  pending : (s.promises t).state = .pending
  refs : (s.promises t).refs = none
  exists_t : t < s.count

/-- `v` may be the value of a promise with this state. -/
structure Fits (s : State) (state : PState) (v : Value) : Prop where
  resolved : state = .resolved → v.isPromise = false
  resolving : state = .resolving → s.Exists v

/-- Each handler on a pending promise and each in `todo` has an open promise of its own. -/
structure Forest (s : State) (todo : List Deferred) : Prop where
  shaped : ∀ x, (s.promises x).state = .pending → (s.promises x).deferreds ≠ .one none
  target : ∀ x, ∀ d ∈ todo ++ s.waiting x, Open s d.promise
  nodup : ∀ x, ((todo ++ s.waiting x).map Deferred.promise).Nodup
  apart : ∀ x y, ∀ d ∈ s.waiting x, ∀ e ∈ s.waiting y, d.promise = e.promise → x = y
  fits : ∀ x, Fits s (s.promises x).state (s.promises x).value

section Forest

variable {s s' : State} {todo rest : List Deferred} {d : Deferred} {p x : Nat} {state : PState} {v : Value}

/-- A promise in `todo` is not that of a handler on a pending promise. -/
theorem Forest.ne (h : Forest s todo) {e : Deferred} (hd : d ∈ todo) (he : e ∈ s.waiting x) :
    d.promise ≠ e.promise := by
  have hnodup := h.nodup x
  rw [List.map_append, List.nodup_append] at hnodup
  exact hnodup.2.2 _ (List.mem_map_of_mem hd) _ (List.mem_map_of_mem he)

theorem Forest.tail (h : Forest s (d :: rest)) : Forest s rest :=
  ⟨h.shaped, fun x e he => h.target x e (List.mem_cons_of_mem d he),
    fun x => (List.nodup_cons.1 (h.nodup x)).2, h.apart, h.fits⟩

theorem Forest.head (h : Forest s (d :: rest)) : Open s d.promise := h.target 0 d List.mem_cons_self

/-- The promises have not changed. -/
theorem Forest.congr (h : Forest s todo) (hpromises : s'.promises = s.promises)
    (hcount : s.count ≤ s'.count) : Forest s' todo := by
  have hwaiting : s'.waiting = s.waiting := by
    funext x
    rw [State.waiting, State.waiting, hpromises]
  refine ⟨hpromises ▸ h.shaped, fun x e he => ?_, fun x => hwaiting ▸ h.nodup x, hwaiting ▸ h.apart,
    fun x => ?_⟩
  · rw [hwaiting] at he
    obtain ⟨hpending, hrefs, hlt⟩ := h.target x e he
    exact ⟨hpromises ▸ hpending, hpromises ▸ hrefs, Nat.lt_of_lt_of_le hlt hcount⟩
  · rw [hpromises]
    exact ⟨(h.fits x).resolved, fun hstate q hq =>
      Nat.lt_of_lt_of_le ((h.fits x).resolving hstate q hq) hcount⟩

theorem settle_self (s : State) (p : Nat) (state : PState) (v : Value) :
    (s.settle p state v).promises p = { s.promises p with state := state, value := v } :=
  Function.update_self ..

theorem settle_ne (hx : x ≠ p) : (s.settle p state v).promises x = s.promises x :=
  Function.update_of_ne hx ..

theorem settle_waiting_ne (hx : x ≠ p) : (s.settle p state v).waiting x = s.waiting x := by
  rw [State.waiting, State.waiting, settle_ne hx]

/-- A promise that no handler has is settled, and its handlers are to be run. -/
theorem Forest.settle (h : Forest s todo) (hp : (s.promises p).state = .pending)
    (hfree : ∀ x, ∀ d ∈ todo ++ s.waiting x, d.promise ≠ p) (hstate : state ≠ .pending)
    (hfits : Fits s state v) : Forest (s.settle p state v) ((s.promises p).deferreds.toList ++ todo) := by
  have hself : (s.settle p state v).waiting p = [] :=
    waiting_settled (by rw [settle_self]; exact hstate)
  have hold : s.waiting p = (s.promises p).deferreds.toList := waiting_pending hp
  have hopen : ∀ t, Open s t → t ≠ p → Open (s.settle p state v) t := fun t ht hne => by
    have hsame : (s.settle p state v).promises t = s.promises t := settle_ne hne
    exact ⟨hsame ▸ ht.pending, hsame ▸ ht.refs, ht.exists_t⟩
  refine ⟨fun x hx => ?_, fun x e he => ?_, fun x => ?_, fun x y e he e' he' heq => ?_, fun x => ?_⟩
  · by_cases hxp : x = p
    · subst hxp
      rw [settle_self] at hx
      exact absurd hx hstate
    · rw [settle_ne hxp] at hx ⊢
      exact h.shaped x hx
  -- what is to be run was in `todo` or waited for `p`, and does not lead back to `p`
  · have hmem : e ∈ todo ++ s.waiting p ∨ e ∈ todo ++ s.waiting x := by
      rw [hold]
      by_cases hxp : x = p
      · subst hxp
        rw [hself, List.append_nil] at he
        exact .inl (List.mem_append.2 (List.mem_append.1 he).symm)
      · rw [settle_waiting_ne hxp] at he
        simp only [List.mem_append] at he ⊢
        tauto
    rcases hmem with hmem | hmem
    · exact hopen _ (h.target p e hmem) (hfree p e hmem)
    · exact hopen _ (h.target x e hmem) (hfree x e hmem)
  · have hp' := h.nodup p
    rw [hold, List.map_append, List.nodup_append] at hp'
    obtain ⟨htodo, hds, hdisjoint⟩ := hp'
    have hboth : (((s.promises p).deferreds.toList ++ todo).map Deferred.promise).Nodup := by
      rw [List.map_append, List.nodup_append]
      exact ⟨hds, htodo, fun a ha b hb heq => hdisjoint b hb a ha heq.symm⟩
    by_cases hxp : x = p
    · subst hxp
      rw [hself, List.append_nil]
      exact hboth
    · rw [settle_waiting_ne hxp, List.map_append, List.nodup_append]
      have hx := h.nodup x
      rw [List.map_append, List.nodup_append] at hx
      refine ⟨hboth, hx.2.1, fun a ha b hb => ?_⟩
      rw [List.map_append] at ha
      rcases List.mem_append.1 ha with ha | ha
      · obtain ⟨e, he, rfl⟩ := List.mem_map.1 ha
        obtain ⟨e', he', rfl⟩ := List.mem_map.1 hb
        exact fun heq => hxp (h.apart p x e (hold ▸ he) e' he' heq).symm
      · exact hx.2.2 a ha b hb
  · by_cases hxp : x = p
    · rw [hxp, hself] at he
      cases he
    · by_cases hyp : y = p
      · rw [hyp, hself] at he'
        cases he'
      · rw [settle_waiting_ne hxp] at he
        rw [settle_waiting_ne hyp] at he'
        exact h.apart x y e he e' he' heq
  · by_cases hxp : x = p
    · subst hxp
      rw [settle_self]
      exact ⟨hfits.resolved, hfits.resolving⟩
    · rw [settle_ne hxp]
      exact ⟨(h.fits x).resolved, (h.fits x).resolving⟩

/-- The next handler in `todo` settles its promise. -/
theorem Forest.serve (h : Forest s (d :: rest)) (hstate : state ≠ .pending) (hfits : Fits s state v) :
    Forest (s.settle d.promise state v) ((s.promises d.promise).deferreds.toList ++ rest) := by
  refine h.tail.settle h.head.pending (fun x e he => ?_) hstate hfits
  have hnodup := h.nodup x
  rw [List.cons_append, List.map_cons, List.nodup_cons] at hnodup
  exact fun heq => hnodup.1 (heq ▸ List.mem_map_of_mem he)

/-- A promise that was settled before is settled again. -/
theorem Forest.resettle (h : Forest s todo) (hp : (s.promises p).state ≠ .pending)
    (hstate : state ≠ .pending) (hfits : Fits s state v) : Forest (s.settle p state v) todo := by
  have hwaiting : (s.settle p state v).waiting = s.waiting := by
    funext x
    by_cases hxp : x = p
    · subst hxp
      rw [waiting_settled hp, waiting_settled (by rw [settle_self]; exact hstate)]
    · exact settle_waiting_ne hxp
  refine ⟨fun x hx => ?_, fun x e he => ?_, hwaiting ▸ h.nodup, hwaiting ▸ h.apart, fun x => ?_⟩
  · by_cases hxp : x = p
    · subst hxp
      rw [settle_self] at hx
      exact absurd hx hstate
    · rw [settle_ne hxp] at hx ⊢
      exact h.shaped x hx
  · rw [hwaiting] at he
    have hopen := h.target x e he
    have hsame : (s.settle p state v).promises e.promise = s.promises e.promise :=
      settle_ne fun heq => hp (heq ▸ hopen.pending)
    exact ⟨hsame ▸ hopen.pending, hsame ▸ hopen.refs, hopen.exists_t⟩
  · by_cases hxp : x = p
    · subst hxp
      rw [settle_self]
      exact ⟨hfits.resolved, hfits.resolving⟩
    · rw [settle_ne hxp]
      exact ⟨(h.fits x).resolved, (h.fits x).resolving⟩

theorem setDeferreds_self (s : State) (p : Nat) (ds : Deferreds) :
    (s.setDeferreds p ds).promises p = { s.promises p with deferreds := ds } :=
  Function.update_self ..

theorem setDeferreds_ne {ds : Deferreds} (hx : x ≠ p) :
    (s.setDeferreds p ds).promises x = s.promises x := Function.update_of_ne hx ..

theorem setDeferreds_but (s : State) (p : Nat) (ds : Deferreds) (x : Nat) :
    ((s.setDeferreds p ds).promises x).state = (s.promises x).state ∧
      ((s.setDeferreds p ds).promises x).value = (s.promises x).value ∧
      ((s.setDeferreds p ds).promises x).refs = (s.promises x).refs := by
  by_cases hxp : x = p
  · subst hxp
    rw [setDeferreds_self]
    exact ⟨rfl, rfl, rfl⟩
  · rw [setDeferreds_ne hxp]
    exact ⟨rfl, rfl, rfl⟩

theorem setDeferreds_waiting_ne {ds : Deferreds} (hx : x ≠ p) :
    (s.setDeferreds p ds).waiting x = s.waiting x := by
  rw [State.waiting, State.waiting, setDeferreds_ne hx]

/-- The handlers of a settled promise are forgotten. -/
theorem Forest.forget (h : Forest s todo) (hp : (s.promises p).state ≠ .pending) (ds : Deferreds) :
    Forest (s.setDeferreds p ds) todo := by
  have hbut := setDeferreds_but s p ds
  have hwaiting : (s.setDeferreds p ds).waiting = s.waiting := by
    funext x
    by_cases hxp : x = p
    · subst hxp
      rw [waiting_settled hp, waiting_settled ((hbut x).1 ▸ hp)]
    · exact setDeferreds_waiting_ne hxp
  refine ⟨fun x hx => ?_, fun x e he => ?_, hwaiting ▸ h.nodup, hwaiting ▸ h.apart, fun x => ?_⟩
  · rw [(hbut x).1] at hx
    have hxp : x ≠ p := by
      rintro rfl
      exact hp hx
    rw [setDeferreds_ne hxp]
    exact h.shaped x hx
  · rw [hwaiting] at he
    obtain ⟨hpending, hrefs, hlt⟩ := h.target x e he
    exact ⟨(hbut _).1.trans hpending, (hbut _).2.2.trans hrefs, hlt⟩
  · rw [(hbut x).1, (hbut x).2.1]
    exact ⟨(h.fits x).resolved, (h.fits x).resolving⟩

/-- The next handler in `todo` is put on a pending promise. -/
theorem Forest.put {ds : Deferreds} (h : Forest s (d :: rest)) (hp : (s.promises p).state = .pending)
    (hds : ds.toList = (s.promises p).deferreds.toList ++ [d]) (hshape : ds ≠ .one none) :
    Forest (s.setDeferreds p ds) rest := by
  have hbut := setDeferreds_but s p ds
  have hself : (s.setDeferreds p ds).waiting p = s.waiting p ++ [d] := by
    rw [waiting_pending ((hbut p).1.trans hp), waiting_pending hp, setDeferreds_self]
    exact hds
  have hopen : ∀ t, Open s t → Open (s.setDeferreds p ds) t := fun t ht =>
    ⟨(hbut t).1.trans ht.pending, (hbut t).2.2.trans ht.refs, ht.exists_t⟩
  refine ⟨fun x hx => ?_, fun x e he => hopen _ ?_, fun x => ?_, fun x y e he e' he' heq => ?_,
    fun x => ?_⟩
  · by_cases hxp : x = p
    · subst hxp
      rw [setDeferreds_self]
      exact hshape
    · rw [setDeferreds_ne hxp] at hx ⊢
      exact h.shaped x hx
  · by_cases hxp : x = p
    · subst hxp
      rw [hself] at he
      refine h.target x e ?_
      simp only [List.mem_append, List.mem_singleton] at he ⊢
      simp only [List.mem_cons]
      tauto
    · rw [setDeferreds_waiting_ne hxp] at he
      exact h.target x e (List.mem_cons_of_mem d he)
  · by_cases hxp : x = p
    · subst hxp
      have hnodup := h.nodup x
      rw [hself]
      refine (List.Perm.nodup_iff ?_).1 hnodup
      refine List.Perm.map _ ?_
      have hmove : rest ++ (s.waiting x ++ [d]) = rest ++ s.waiting x ++ [d] := by simp
      rw [hmove]
      exact (List.perm_append_singleton d _).symm
    · rw [setDeferreds_waiting_ne hxp]
      exact (List.nodup_cons.1 (h.nodup x)).2
  -- a promise gets at most `d`, which no promise had
  · have hold : ∀ z, ∀ u ∈ (s.setDeferreds p ds).waiting z, u ∈ s.waiting z ∨ z = p ∧ u = d := by
      intro z u hu
      by_cases hzp : z = p
      · subst hzp
        rw [hself] at hu
        rcases List.mem_append.1 hu with hu | hu
        · exact .inl hu
        · exact .inr ⟨rfl, List.mem_singleton.1 hu⟩
      · rw [setDeferreds_waiting_ne hzp] at hu
        exact .inl hu
    rcases hold x e he with he | ⟨hxp, hed⟩
    · rcases hold y e' he' with he' | ⟨-, hed'⟩
      · exact h.apart x y e he e' he' heq
      · rw [hed'] at heq
        exact absurd heq.symm (h.ne List.mem_cons_self he)
    · rcases hold y e' he' with he' | ⟨hyp, -⟩
      · rw [hed] at heq
        exact absurd heq (h.ne List.mem_cons_self he')
      · rw [hxp, hyp]
  · rw [(hbut x).1, (hbut x).2.1]
    exact ⟨(h.fits x).resolved, (h.fits x).resolving⟩

/-- A promise that no handler has gets callbacks. -/
theorem Forest.setRefs (h : Forest s todo) (refs : Nat × Nat)
    (hfree : ∀ x, ∀ d ∈ todo ++ s.waiting x, d.promise ≠ p) :
    Forest (s.setPromise p { s.promises p with refs := some refs }) todo := by
  have hbut : ∀ x, ∃ r, (s.setPromise p { s.promises p with refs := some refs }).promises x =
      { s.promises x with refs := r } := by
    intro x
    by_cases hxp : x = p
    · subst hxp
      exact ⟨some refs, Function.update_self ..⟩
    · exact ⟨(s.promises x).refs, Function.update_of_ne hxp ..⟩
  have hwaiting : (s.setPromise p { s.promises p with refs := some refs }).waiting = s.waiting := by
    funext x
    obtain ⟨r, hx⟩ := hbut x
    rw [State.waiting, State.waiting, hx]
  refine ⟨fun x hx => ?_, fun x e he => ?_, hwaiting ▸ h.nodup, hwaiting ▸ h.apart, fun x => ?_⟩
  · obtain ⟨r, hr⟩ := hbut x
    rw [hr] at hx ⊢
    exact h.shaped x hx
  · rw [hwaiting] at he
    have hsame : (s.setPromise p { s.promises p with refs := some refs }).promises e.promise =
        s.promises e.promise := Function.update_of_ne (hfree x e he) ..
    obtain ⟨hpending, hrefs, hlt⟩ := h.target x e he
    exact ⟨hsame ▸ hpending, hsame ▸ hrefs, hlt⟩
  · obtain ⟨r, hr⟩ := hbut x
    rw [hr]
    exact ⟨(h.fits x).resolved, (h.fits x).resolving⟩

theorem Forest.register (h : Forest s (d :: rest)) (hp : (s.promises p).state = .pending) :
    Forest (s.register p (some d)).2 rest := by
  have hshaped := h.shaped p hp
  rw [State.register]
  cases hds : (s.promises p).deferreds with
  | zero => exact h.put hp (by rw [hds]; rfl) (by simp)
  | one e =>
      cases e with
      | none => exact absurd hds hshaped
      | some e => exact h.put hp (by rw [hds]; rfl) (by simp)
  | table ds => exact h.put hp (by rw [hds]; rfl) (by simp)

end Forest

/-! ## Settled promises hand their state down -/

/-- The registry and the promises with callbacks are what they were. -/
structure Untouched (s s' : State) : Prop where
  count : s'.count = s.count
  slots : s'.slots = s.slots
  len : s'.len = s.len
  owner : s'.owner = s.owner
  misuses : s'.misuses = s.misuses
  errerr : s'.errerr = s.errerr
  called : s'.called = s.called
  refs : ∀ x, (s'.promises x).refs = (s.promises x).refs
  state : ∀ x, (s.promises x).refs ≠ none → (s'.promises x).state = (s.promises x).state
  unborn : ∀ x, s.count ≤ x → s'.promises x = s.promises x

theorem Untouched.refl (s : State) : Untouched s s :=
  ⟨rfl, rfl, rfl, rfl, rfl, rfl, rfl, fun _ => rfl, fun _ _ => rfl, fun _ _ => rfl⟩

theorem Untouched.trans {s s₁ s' : State} (h : Untouched s s₁) (h' : Untouched s₁ s') :
    Untouched s s' := by
  refine ⟨h'.count.trans h.count, h'.slots.trans h.slots, h'.len.trans h.len, h'.owner.trans h.owner,
    h'.misuses.trans h.misuses, h'.errerr.trans h.errerr, h'.called.trans h.called,
    fun x => (h'.refs x).trans (h.refs x), fun x hx => ?_, fun x hx => ?_⟩
  · rw [h'.state x (h.refs x ▸ hx), h.state x hx]
  · rw [h'.unborn x (h.count ▸ hx), h.unborn x hx]

/-- Between `s` and `s'` open promises have settled, and nothing else has changed. -/
structure OnlySettled (s s' : State) : Prop extends Untouched s s' where
  settled : ∀ x, (s.promises x).state ≠ .pending →
    (s'.promises x).state = (s.promises x).state ∧ (s'.promises x).value = (s.promises x).value
  pending : ∀ x, (s'.promises x).state = .pending → s'.promises x = s.promises x

theorem OnlySettled.refl (s : State) : OnlySettled s s :=
  ⟨.refl s, fun _ _ => ⟨rfl, rfl⟩, fun _ _ => rfl⟩

theorem OnlySettled.trans {s s₁ s' : State} (h : OnlySettled s s₁) (h' : OnlySettled s₁ s') :
    OnlySettled s s' := by
  refine ⟨h.toUntouched.trans h'.toUntouched, fun x hx => ?_, fun x hx => ?_⟩
  · obtain ⟨hstate, hvalue⟩ := h.settled x hx
    obtain ⟨hstate', hvalue'⟩ := h'.settled x (hstate ▸ hx)
    exact ⟨hstate'.trans hstate, hvalue'.trans hvalue⟩
  · have hsame := h'.pending x hx
    rw [hsame] at hx ⊢
    exact h.pending x hx

theorem settle_refs (s : State) (p : Nat) (state : PState) (v : Value) (x : Nat) :
    ((s.settle p state v).promises x).refs = (s.promises x).refs := by
  by_cases hxp : x = p
  · subst hxp
    rw [settle_self]
  · rw [settle_ne hxp]

theorem OnlySettled.settle {s : State} {p : Nat} {state : PState} {v : Value} (hp : Open s p)
    (hstate : state ≠ .pending) : OnlySettled s (s.settle p state v) := by
  refine ⟨⟨rfl, rfl, rfl, rfl, rfl, rfl, rfl, settle_refs s p state v, fun x hx => ?_, fun x hx => ?_⟩,
    fun x hx => ?_, fun x hx => ?_⟩
  · have hxp : x ≠ p := by
      rintro rfl
      exact hx hp.refs
    rw [settle_ne hxp]
  · exact settle_ne (Nat.ne_of_gt (Nat.lt_of_lt_of_le hp.exists_t hx))
  · have hxp : x ≠ p := by
      rintro rfl
      exact hx hp.pending
    rw [settle_ne hxp]
    exact ⟨rfl, rfl⟩
  · have hxp : x ≠ p := by
      rintro rfl
      rw [settle_self] at hx
      exact hstate hx
    exact settle_ne hxp

theorem Untouched.setDeferreds {s : State} {p : Nat} (hp : p < s.count) (ds : Deferreds) :
    Untouched s (s.setDeferreds p ds) :=
  ⟨rfl, rfl, rfl, rfl, rfl, rfl, rfl, fun x => (setDeferreds_but s p ds x).2.2,
    fun x _ => (setDeferreds_but s p ds x).1,
    fun _ hx => setDeferreds_ne (Nat.ne_of_gt (Nat.lt_of_lt_of_le hp hx))⟩

theorem OnlySettled.forget {s : State} {p : Nat} (hlt : p < s.count)
    (hp : (s.promises p).state ≠ .pending) (ds : Deferreds) : OnlySettled s (s.setDeferreds p ds) := by
  have hbut := setDeferreds_but s p ds
  refine ⟨.setDeferreds hlt ds, fun x _ => ⟨(hbut x).1, (hbut x).2.1⟩, fun x hx => ?_⟩
  have hxp : x ≠ p := by
    rintro rfl
    rw [(hbut x).1] at hx
    exact hp hx
  exact setDeferreds_ne hxp

/-- The chain of a promise that stands for others stays what it is, as long as its end has settled. -/
theorem OnlySettled.follow {s s' : State} {n p r : Nat} (h : OnlySettled s s')
    (hp : s.follow n p = some r) (hr : (s.promises r).state ≠ .pending) : s'.follow n p = some r := by
  induction n generalizing p with
  | zero => cases hp
  | succ n ih =>
      rw [State.follow] at hp ⊢
      split at hp
      case isTrue hresolving =>
          obtain ⟨hstate, hvalue⟩ := h.settled p (by simp [hresolving])
          rw [if_pos (hstate.trans hresolving), hvalue]
          cases hval : (s.promises p).value with
          | promise q =>
              rw [hval] at hp
              exact ih hp
          | nil =>
              rw [hval] at hp
              cases hp
          | num k =>
              rw [hval] at hp
              cases hp
          | other k =>
              rw [hval] at hp
              cases hp
      case isFalse hne =>
          obtain rfl := Option.some.inj hp
          rw [if_neg ((h.settled p hr).1 ▸ hne)]

/-- No handler is called when `x` settles with this state. -/
inductive Passes (s : State) (state : PState) : Nat → Prop
  | intro (x : Nat) : (∀ d ∈ (s.promises x).deferreds.toList, d.selected state = none) →
      (∀ d ∈ (s.promises x).deferreds.toList, Passes s state d.promise) → Passes s state x

/-- `handle` finds a settled promise at the end of the chain of `p`. -/
structure Final (s : State) (state : PState) (p r : Nat) : Prop where
  follow : s.follow (s.count + 1) p = some r
  state_r : (s.promises r).state = state
  kind : state = .resolved ∨ state = .rejected

theorem Final.ne_pending {s : State} {state : PState} {p r : Nat} (h : Final s state p r) :
    (s.promises r).state ≠ .pending := by
  rw [h.state_r]
  rcases h.kind with rfl | rfl <;> simp

theorem Final.later {s s' : State} {state : PState} {p r : Nat} (h : Final s state p r)
    (hs : OnlySettled s s') : Final s' state p r :=
  ⟨hs.count ▸ hs.follow h.follow h.ne_pending, (hs.settled r h.ne_pending).1.trans h.state_r, h.kind⟩

/-- What is left to do. -/
def Leaves (s : State) (rest : List Deferred) (s' : State) : Prop := OnlySettled s s' ∧ Forest s' rest

/-- What the functions do with a given depth of the stack, in a call that began in `s₀`. -/
structure PassesAt (s₀ : State) (state : PState) (n : Nat) : Prop where
  resolve : ∀ s d rest v, OnlySettled s₀ s → Forest s (d :: rest) → Passes s₀ state d.promise →
    state = .resolved → v.isPromise = false →
      (resolve n (.promise d.promise) v s).Comes fun _ => Leaves s rest
  reject : ∀ s d rest v, OnlySettled s₀ s → Forest s (d :: rest) → Passes s₀ state d.promise →
    state = .rejected → (reject n (.promise d.promise) v s).Comes fun _ => Leaves s rest
  finale : ∀ s p r rest, OnlySettled s₀ s → Forest s ((s.promises p).deferreds.toList ++ rest) →
    (s.promises p).deferreds ≠ .one none → p < s.count → (s.promises p).state ≠ .pending →
    Final s state p r →
    (∀ d ∈ (s.promises p).deferreds.toList, d.selected state = none ∧ Passes s₀ state d.promise) →
      (finale n p s).Comes fun _ => Leaves s rest
  handle : ∀ s p r d rest, OnlySettled s₀ s → Forest s (d :: rest) → Final s state p r →
    d.selected state = none → Passes s₀ state d.promise →
      (handle n p (some d) s).Comes fun extra s' => extra = 0 ∧ Leaves s rest s'
  handleResolved : ∀ s r d rest, OnlySettled s₀ s → Forest s (d :: rest) →
    (s.promises r).state = state → (state = .resolved ∨ state = .rejected) →
    d.selected state = none → Passes s₀ state d.promise →
      (handleResolved n r (some d) s).Comes fun _ => Leaves s rest

section Passing

variable {s₀ s : State} {state : PState} {n p r : Nat} {d : Deferred} {rest : List Deferred} {v : Value}

theorem PassesAt.zero : PassesAt s₀ state 0 := by
  refine ⟨fun s d rest v _ _ _ _ _ => ?_, fun s d rest v _ _ _ _ => ?_, fun s p r rest _ _ _ _ _ _ _ => ?_,
    fun s p r d rest _ _ _ _ _ => ?_, fun s r d rest _ _ _ _ _ _ => ?_⟩
  · rw [Lua.resolve]
    trivial
  · rw [Lua.reject]
    trivial
  · rw [Lua.finale]
    trivial
  · rw [Lua.handle]
    trivial
  · rw [Lua.handleResolved]
    trivial

/-- The promise of the next handler is settled, which then runs its own handlers. -/
theorem PassesAt.settle (h : PassesAt s₀ state n) (hs : OnlySettled s₀ s) (hforest : Forest s (d :: rest))
    (hpass : Passes s₀ state d.promise) (hkind : state = .resolved ∨ state = .rejected)
    (hplain : state = .resolved → v.isPromise = false) :
    (Lua.finale n d.promise (s.settle d.promise state v)).Comes fun _ => Leaves s rest := by
  have hopen := hforest.head
  have hne : state ≠ .pending ∧ state ≠ .resolving := by
    rcases hkind with rfl | rfl <;> simp
  have hself := settle_self s d.promise state v
  have hstep : OnlySettled s (s.settle d.promise state v) := .settle hopen hne.1
  have hds : ((s.settle d.promise state v).promises d.promise).deferreds =
      (s.promises d.promise).deferreds := by rw [hself]
  have hstate : ((s.settle d.promise state v).promises d.promise).state = state := by rw [hself]
  have hsame := hs.pending d.promise hopen.pending
  obtain ⟨-, hnil, hdown⟩ := hpass
  refine (h.finale (s.settle d.promise state v) d.promise d.promise rest (hs.trans hstep) ?_ ?_
    hopen.exists_t ?_ ⟨follow_settled (by rw [hstate]; exact hne.2), hstate, hkind⟩ ?_).mono
    fun _ s' hs' => ⟨hstep.trans hs'.1, hs'.2⟩
  · rw [hds]
    exact hforest.serve hne.1 ⟨hplain, fun heq => absurd heq hne.2⟩
  · rw [hds]
    exact hforest.shaped _ hopen.pending
  · rw [hstate]
    exact hne.1
  · rw [hds, hsame]
    exact fun e he => ⟨hnil e he, hdown e he⟩

theorem finaleLoop_passes (h : PassesAt s₀ state n) {ds : List Deferred} (hs : OnlySettled s₀ s)
    (hforest : Forest s (ds ++ rest)) (hfinal : Final s state p r)
    (hds : ∀ d ∈ ds, d.selected state = none ∧ Passes s₀ state d.promise) :
    (finaleLoop (fun d s => Lua.handle n p (some d) s) ds s).Comes fun _ => Leaves s rest := by
  induction ds generalizing s with
  | nil => exact ⟨.refl s, hforest⟩
  | cons d ds ih =>
      obtain ⟨hnil, hpass⟩ := hds d List.mem_cons_self
      refine (h.handle s p r d (ds ++ rest) hs hforest hfinal hnil hpass).andThen ?_
      rintro extra s₁ ⟨rfl, hs₁, hforest₁⟩
      rw [if_pos rfl]
      refine (ih (hs.trans hs₁) hforest₁ (hfinal.later hs₁) fun e he => hds e (by simp [he])).mono ?_
      exact fun _ s' hs' => ⟨hs₁.trans hs'.1, hs'.2⟩

theorem PassesAt.succ (h : PassesAt s₀ state n) : PassesAt s₀ state (n + 1) := by
  refine ⟨fun s d rest v hs hforest hpass hstate hv => ?_, fun s d rest v hs hforest hpass hstate => ?_,
    fun s p r rest hs hforest hshape hlt hp hfinal hds => ?_, fun s p r d rest hs hforest hfinal hnil hpass => ?_,
    fun s r d rest hs hforest hr hkind hnil hpass => ?_⟩
  · rw [Lua.resolve, hv, if_neg (by simp), ← hstate]
    exact h.settle hs hforest hpass (.inl hstate) fun _ => hv
  · rw [Lua.reject, ← hstate]
    exact h.settle hs hforest hpass (.inr hstate) fun heq => absurd (hstate.symm.trans heq) (by simp)
  · rw [Lua.finale]
    cases hshape' : (s.promises p).deferreds with
    | zero =>
        rw [hshape'] at hforest
        exact ⟨.refl s, hforest⟩
    | one e =>
        cases e with
        | none => exact absurd hshape' hshape
        | some e =>
            rw [hshape'] at hforest hds
            obtain ⟨hnil, hpass⟩ := hds e (by simp [Deferreds.toList])
            refine (h.handle s p r e rest hs hforest hfinal hnil hpass).andThen ?_
            rintro extra s₁ ⟨-, hs₁, hforest₁⟩
            have hp₁ : (s₁.promises p).state ≠ .pending := (hs₁.settled p hp).1 ▸ hp
            exact ⟨hs₁.trans (.forget (hs₁.count ▸ hlt) hp₁ _), hforest₁.forget hp₁ _⟩
    | table ds =>
        rw [hshape'] at hforest hds
        exact finaleLoop_passes h hs hforest hfinal hds
  · rw [Lua.handle, hfinal.follow]
    dsimp only
    rw [if_neg hfinal.ne_pending]
    refine (h.handleResolved s r d rest hs hforest hfinal.state_r hfinal.kind hnil hpass).andThen ?_
    exact fun _ s₁ hs₁ => ⟨rfl, hs₁⟩
  · rw [Lua.handleResolved]
    dsimp only
    rw [hr, hnil]
    dsimp only
    rcases hkind with rfl | rfl
    · rw [if_pos rfl]
      exact h.resolve s d rest _ hs hforest hpass rfl ((hforest.fits r).resolved hr)
    · rw [if_neg (by simp)]
      exact h.reject s d rest _ hs hforest hpass rfl

theorem passesAt (s₀ : State) (state : PState) (n : Nat) : PassesAt s₀ state n := by
  induction n with
  | zero => exact .zero
  | succ n ih => exact ih.succ

end Passing

/-! ## Handlers move to the promise that theirs stands for -/

section Moving

variable {s : State} {n p r : Nat} {d : Deferred} {todo rest : List Deferred}

/-- The chain of a promise ends in one that exists and stands for no other. -/
theorem Forest.follow (h : Forest s todo) (hp : p < s.count) (hr : s.follow n p = some r) :
    r < s.count ∧ (s.promises r).state ≠ .resolving := by
  induction n generalizing p with
  | zero => cases hr
  | succ n ih =>
      rw [State.follow] at hr
      split at hr
      case isTrue hresolving =>
          cases hval : (s.promises p).value with
          | promise q =>
              rw [hval] at hr
              exact ih ((h.fits p).resolving hresolving q hval) hr
          | nil =>
              rw [hval] at hr
              cases hr
          | num k =>
              rw [hval] at hr
              cases hr
          | other k =>
              rw [hval] at hr
              cases hr
      case isFalse hne =>
          obtain rfl := Option.some.inj hr
          exact ⟨hp, hne⟩

theorem setDeferreds_follow (ds : Deferreds) : (s.setDeferreds r ds).follow n p = s.follow n p := by
  induction n generalizing p with
  | zero => rfl
  | succ n ih =>
      obtain ⟨hstate, hvalue, -⟩ := setDeferreds_but s r ds p
      rw [State.follow, State.follow, hstate, hvalue]
      split
      · cases (s.promises p).value with
        | promise q => exact ih
        | nil => rfl
        | num k => rfl
        | other k => rfl
      · rfl

/-- `handle` finds a pending promise at the end of the chain of `p`. -/
structure Ending (s : State) (p r : Nat) : Prop where
  follow : s.follow (s.count + 1) p = some r
  pending : (s.promises r).state = .pending
  exists_r : r < s.count

theorem Ending.setDeferreds {x : Nat} (h : Ending s p r) (ds : Deferreds) :
    Ending (s.setDeferreds x ds) p r :=
  ⟨(setDeferreds_follow ds).trans h.follow, (setDeferreds_but s x ds r).1.trans h.pending, h.exists_r⟩

theorem register_eq (s : State) (r : Nat) (x : Option Deferred) :
    ∃ ds, (s.register r x).2 = s.setDeferreds r ds := by
  rw [State.register]
  split
  · exact ⟨_, rfl⟩
  · exact ⟨_, rfl⟩
  · exact ⟨_, rfl⟩

/-- The next handler is put on the promise at the end of the chain. -/
theorem handle_ending (h : Ending s p r) (hforest : Forest s (d :: rest)) :
    (handle n p (some d) s).Comes fun extra s' =>
      Untouched s s' ∧ Ending s' p r ∧ Forest s' rest ∧
        (∃ ds, s' = s.setDeferreds r ds) ∧ extra = (s.register r (some d)).1 ∧
        s' = (s.register r (some d)).2 := by
  cases n with
  | zero =>
      rw [handle]
      trivial
  | succ n =>
      obtain ⟨ds, hds⟩ := register_eq s r (some d)
      rw [handle, h.follow]
      dsimp only
      rw [if_pos h.pending]
      refine ⟨?_, ?_, hforest.register h.pending, ⟨ds, hds⟩, rfl, rfl⟩
      · rw [hds]
        exact .setDeferreds h.exists_r ds
      · rw [hds]
        exact h.setDeferreds ds

/-- The handlers of `p` fit on the promise `r`. -/
def Roomy (s : State) (p r : Nat) : Prop :=
  ∀ ds, (s.promises p).deferreds = .table ds → (s.promises r).deferreds = .zero ∧ ds.length ≤ 2

/-- The handlers of a promise that stands for a pending one are put on that one. -/
theorem finale_ending (h : Ending s p r) (hp : p < s.count) (hstate : (s.promises p).state ≠ .pending)
    (hforest : Forest s ((s.promises p).deferreds.toList)) (hshape : (s.promises p).deferreds ≠ .one none)
    (hroom : Roomy s p r) :
    (finale n p s).Comes fun _ s' => Untouched s s' ∧ Forest s' [] := by
  cases n with
  | zero =>
      rw [finale]
      trivial
  | succ n =>
      rw [finale]
      cases hds : (s.promises p).deferreds with
      | zero =>
          rw [hds] at hforest
          exact ⟨.refl s, hforest⟩
      | one d =>
          cases d with
          | none => exact absurd hds hshape
          | some d =>
              rw [hds] at hforest
              refine (handle_ending h hforest).andThen ?_
              rintro extra s₁ ⟨hs₁, -, hforest₁, ⟨ds, heq⟩, -, -⟩
              have hp₁ : (s₁.promises p).state ≠ .pending := by
                rw [heq, (setDeferreds_but s r ds p).1]
                exact hstate
              exact ⟨hs₁.trans (.setDeferreds (hs₁.count ▸ hp) _), hforest₁.forget hp₁ _⟩
      | table ds =>
          rw [hds] at hforest
          obtain ⟨hzero, hlength⟩ := hroom ds hds
          -- The first handler is kept alone, and the second makes a table of both.
          obtain _ | ⟨d, _ | ⟨e, _ | ⟨e', ds⟩⟩⟩ := ds
          · exact ⟨.refl s, hforest⟩
          · refine (handle_ending h hforest).andThen ?_
            rintro extra s₁ ⟨hs₁, -, hforest₁, -, hextra, -⟩
            rw [hextra, State.register, hzero, if_pos rfl]
            exact ⟨hs₁, hforest₁⟩
          · refine (handle_ending h hforest).andThen ?_
            rintro extra s₁ ⟨hs₁, h₁, hforest₁, -, hextra, heq⟩
            rw [hextra, State.register, hzero, if_pos rfl]
            refine (handle_ending h₁ hforest₁).andThen ?_
            rintro extra' s₂ ⟨hs₂, -, hforest₂, -, hextra', -⟩
            have hone : (s₁.promises r).deferreds = .one (some d) := by
              rw [heq, State.register, hzero, setDeferreds_self]
            rw [hextra', State.register, hone, if_pos rfl]
            exact ⟨hs₁.trans hs₂, hforest₂⟩
          · simp only [List.length_cons] at hlength
            omega

end Moving

end Yaos.Lua
