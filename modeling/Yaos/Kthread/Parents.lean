import Yaos.Kthread.Current

set_option autoImplicit false

/-! # The chain of parents

`wake_up_thread` and `suspend_thread` go up the chain of parents from `current` and expect it to end.
The set-up makes `idle` the parent of `kmain` and then resumes `idle` from `kmain`, which makes `kmain`
the parent of `idle`. No call after that leaves the circle: a new parent is always `current`, and
`current` is always a thread on its own chain. -/

namespace Yaos

open Chains

/-- The parent of a thread. -/
def Cpu.parent (s : Cpu) (t : Nat) : Option Nat := (s.threads t).parent

/-- Following `parent` from `current` comes to NULL. -/
def Cpu.ReachesNull (s : Cpu) : Prop :=
  ∃ ts, Chain s.parent (some s.current) ts

theorem setParent_parent (s : Cpu) (p q : Nat) :
    (s.setParent p q).parent = Function.update s.parent p (some q) := by
  funext t
  by_cases ht : t = p
  · subst ht
    simp [Cpu.parent, Cpu.setParent, Cpu.set]
  · simp [Cpu.parent, Cpu.setParent, Cpu.set, Function.update_of_ne ht]

/-! ## One call -/

section Calls

variable {s s' : Cpu}

/-- A switch of stacks concerns no chain. -/
theorem Switched.reachesNull_iff {p old : Nat} {mark : Bool} (h : Switched s s' p old mark) :
    s'.ReachesNull ↔ s.ReachesNull := by
  have hparent : s'.parent = s.parent := funext h.parent
  rw [Cpu.ReachesNull, hparent, h.current, Cpu.ReachesNull]

/-- A call that makes `current` the parent of `p` and goes to `p`. -/
theorem not_reachesNull_down {p old : Nat} {mark : Bool} {s₀ : Cpu} (h : ¬ s.ReachesNull)
    (hsw : Switched s₀ s' p old mark)
    (hparent : s₀.parent = Function.update s.parent p (some s.current)) (hcur : s₀.current = p) :
    ¬ s'.ReachesNull := by
  rw [hsw.reachesNull_iff, Cpu.ReachesNull, hparent, hcur]
  exact no_chain_of_link h

/-- A call that goes to a thread above `current`. -/
theorem not_reachesNull_up {p old : Nat} {mark : Bool} {s₀ : Cpu} (h : ¬ s.ReachesNull)
    (hsw : Switched s₀ s' p old mark) (hparent : s₀.parent = s.parent) (hcur : s₀.current = p)
    (hup : Visits s.parent (s.parent s.current) p) : ¬ s'.ReachesNull := by
  rw [hsw.reachesNull_iff, Cpu.ReachesNull, hparent, hcur]
  rintro ⟨ts, hts⟩
  exact h (Visits.chain (.there hup) hts)

theorem visits_of_firstAwake {fuel : Nat} {head : Option Nat} {p : Nat}
    (h : firstAwake s fuel head = .ok (some p)) : Visits s.parent head p := by
  induction fuel generalizing head with
  | zero => cases head <;> cases h
  | succ fuel ih =>
      cases head with
      | none => cases h
      | some q =>
          rw [firstAwake] at h
          split at h
          · exact .there (ih h)
          · obtain rfl := Option.some.inj (Except.ok.inj h)
            exact .here _

theorem not_reachesNull_call {fuel : Nat} {c : ThreadCall} (h : ¬ s.ReachesNull)
    (hrun : threadCall fuel s c = .ok s') : ¬ s'.ReachesNull := by
  -- a switch goes up the chain of parents or hangs a thread below the current one
  cases c with
  | resume p =>
      rw [threadCall, resumeThread] at hrun
      split at hrun
      · obtain rfl := Except.ok.inj hrun
        exact h
      · obtain ⟨-, hrun⟩ := assert_bind_eq_ok.1 hrun
        exact not_reachesNull_down h (switchThread_switched hrun) (setParent_parent s p s.current) rfl
  | yield =>
      obtain ⟨-, hrun⟩ := assert_bind_eq_ok.1 hrun
      split at hrun
      case h_1 => cases hrun
      case h_2 p hp =>
          have hup : Visits s.parent (s.parent s.current) p := by
            rw [Cpu.parent, hp]
            exact .here p
          exact not_reachesNull_up h (switchThread_switched hrun) rfl rfl hup
  | suspend =>
      obtain ⟨-, hrun⟩ := assert_bind_eq_ok.1 hrun
      obtain ⟨r, hr, hrun⟩ := bind_eq_ok.1 hrun
      cases r with
      | none => cases hrun
      | some p =>
          obtain ⟨-, hrun⟩ := assert_bind_eq_ok.1 hrun
          have hparent : ((s.setSuspend s.current true).setCurrent p).parent = s.parent :=
            funext fun t => setSuspend_parent s s.current t true
          exact not_reachesNull_up h (switchThread_switched hrun) hparent rfl
            (visits_of_firstAwake hr)
  | wakeUp p =>
      rw [threadCall, wakeUpThread] at hrun
      split at hrun
      · obtain rfl := Except.ok.inj hrun
        exact h
      split at hrun
      · obtain rfl := Except.ok.inj hrun
        exact h
      split at hrun
      · obtain ⟨found, -, hrun⟩ := bind_eq_ok.1 hrun
        obtain ⟨-, hrun⟩ := assert_bind_eq_ok.1 hrun
        obtain rfl := Except.ok.inj hrun
        exact h
      · have hparent : (((s.setSuspend p false).setCurrent p).setParent p s.current).parent =
            Function.update s.parent p (some s.current) := by
          have hsame : ((s.setSuspend p false).setCurrent p).parent = s.parent :=
            funext fun t => setSuspend_parent s p t false
          rw [setParent_parent, hsame]
        exact not_reachesNull_down h (switchThread_switched hrun) hparent rfl
  | exit =>
      rw [threadCall, exitThread] at hrun
      split at hrun
      · cases hrun
      · rw [(switchThread_switched hrun).reachesNull_iff, Cpu.ReachesNull]
        have hparent : (s.setState s.current .done).parent = s.parent :=
          funext fun t => setState_parent s s.current t .done
        rw [hparent]
        exact h

/-- The check in `wake_up_thread` goes up the whole chain. -/
theorem ancestorFound_hang {p : Nat} {head : Option Nat} (h : ¬ ∃ ts, Chain s.parent head ts)
    (fuel : Nat) (found : Bool) : ancestorFound s p fuel head found = .error .hang := by
  induction fuel generalizing head found with
  | zero =>
      cases head with
      | none => exact absurd ⟨[], rfl⟩ h
      | some t => rfl
  | succ fuel ih =>
      cases head with
      | none => exact absurd ⟨[], rfl⟩ h
      | some t =>
          rw [ancestorFound]
          refine ih ?_ _
          rintro ⟨ts, hts⟩
          exact h ⟨t :: ts, rfl, hts⟩

end Calls

/-! ## Runs -/

theorem not_reachesNull_calls {fuel : Nat} {s s' : Cpu} {cs : List ThreadCall}
    (h : ¬ s.ReachesNull) (hrun : threadCalls fuel s cs = .ok s') : ¬ s'.ReachesNull := by
  induction cs generalizing s with
  | nil =>
      obtain rfl := Except.ok.inj hrun
      exact h
  | cons c cs ih =>
      rw [threadCalls, List.foldlM_cons] at hrun
      obtain ⟨s₁, hs₁, hrest⟩ := bind_eq_ok.1 hrun
      exact ih (not_reachesNull_call h hs₁) hrest

/-- The set-up leaves `idle` running, with each of the two as the parent of the other. -/
theorem initThreadCall_parents {s s' : Cpu} {idle kmain : Nat} {avail : Nat → Bool}
    (h : initThreadCall s idle kmain avail = .ok (0, s')) :
    s'.current = idle ∧ s'.parent idle = some kmain ∧ s'.parent kmain = some idle := by
  obtain ⟨s₀, hup, hresume⟩ := initThreadCall_setUp h
  rw [resumeThread, if_neg hup.idle_state] at hresume
  obtain ⟨-, hrun⟩ := assert_bind_eq_ok.1 hresume
  have hsw := switchThread_switched hrun
  have hparent : s'.parent = Function.update s₀.parent idle (some kmain) := by
    rw [← hup.current, ← setParent_parent]
    exact funext hsw.parent
  refine ⟨hsw.current, ?_, ?_⟩
  · rw [hparent, Function.update_self]
  · rw [hparent, Function.update_of_ne hup.ne, Cpu.parent, hup.kmain_eq]

theorem not_reachesNull_of_circle {s : Cpu} {idle kmain : Nat} (hcur : s.current = idle)
    (hidle : s.parent idle = some kmain) (hkmain : s.parent kmain = some idle) :
    ¬ s.ReachesNull := by
  rintro ⟨ts, hts⟩
  rw [hcur] at hts
  obtain ⟨i, rest, rfl⟩ := List.exists_cons_of_ne_nil fun hnil : ts = [] => by
    rw [hnil] at hts
    cases hts
  obtain ⟨heq, hrest⟩ := hts
  obtain rfl := Option.some.inj heq
  rw [hidle] at hrest
  obtain ⟨k, ts, rfl⟩ := List.exists_cons_of_ne_nil fun hnil : rest = [] => by
    rw [hnil] at hrest
    cases hrest
  obtain ⟨heq, hagain⟩ := hrest
  obtain rfl := Option.some.inj heq
  rw [hkmain] at hagain
  -- the way round comes back to `idle` and would have to be as long as its own rest
  have hlen := congrArg List.length
    (hagain.unique (show Chain s.parent (some idle) (idle :: kmain :: ts) from
      ⟨rfl, hidle, hkmain ▸ hagain⟩))
  rw [List.length_cons, List.length_cons] at hlen
  omega

theorem initThreadCall_not_reachesNull {s s' : Cpu} {idle kmain : Nat} {avail : Nat → Bool}
    (h : initThreadCall s idle kmain avail = .ok (0, s')) : ¬ s'.ReachesNull := by
  obtain ⟨hcur, hidle, hkmain⟩ := initThreadCall_parents h
  exact not_reachesNull_of_circle hcur hidle hkmain

/-- From the set-up on the chain of parents of `current` never ends, whatever the threads call, and
    the check in `wake_up_thread` goes round for ever. -/
theorem parents_endless {s₀ s₁ s : Cpu} {idle kmain : Nat} {avail : Nat → Bool} {fuel : Nat}
    {cs : List ThreadCall} (hinit : initThreadCall s₀ idle kmain avail = .ok (0, s₁))
    (hrun : threadCalls fuel s₁ cs = .ok s) :
    ¬ s.ReachesNull ∧ ∀ p fuel found,
      ancestorFound s p fuel (some s.current) found = .error .hang := by
  have hend := not_reachesNull_calls (initThreadCall_not_reachesNull hinit) hrun
  exact ⟨hend, fun p fuel found => ancestorFound_hang hend fuel found⟩

/-- A CPU before the set-up of its threads. -/
def freshCpu : Cpu where
  threads _ := { state := .init, suspend := false, parent := none, rsp := none, mapped := false
                 inZone := false }
  current := 0
  stack := 0

/-- After the set-up `idle` yields to `kmain`. -/
theorem parents_endless_yield : ∃ s₁ s, initThreadCall freshCpu 0 1 (fun _ => true) = .ok (0, s₁) ∧
    threadCalls 0 s₁ [.yield] = .ok s ∧ ¬ s.ReachesNull := by
  have hinit : ∃ s₁, initThreadCall freshCpu 0 1 (fun _ => true) = .ok (0, s₁) ∧
      ∃ s, threadCalls 0 s₁ [.yield] = .ok s := ⟨_, rfl, _, rfl⟩
  obtain ⟨s₁, hinit, s, hrun⟩ := hinit
  exact ⟨s₁, s, hinit, hrun, (parents_endless hinit hrun).1⟩

/-- Right after the set-up the chain of `idle` goes round. -/
theorem parents_circle_setUp :
    ¬ ∀ s₁, initThreadCall freshCpu 0 1 (fun _ => true) = .ok (0, s₁) → s₁.ReachesNull := by
  intro hall
  have hinit : ∃ s₁, initThreadCall freshCpu 0 1 (fun _ => true) = .ok (0, s₁) := ⟨_, rfl⟩
  obtain ⟨s₁, hinit⟩ := hinit
  exact initThreadCall_not_reachesNull hinit (hall s₁ hinit)

end Yaos
