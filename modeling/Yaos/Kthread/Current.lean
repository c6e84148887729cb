import Yaos.Kthread
import Yaos.Lib.Chain

set_option autoImplicit false

/-! # Which thread `current` names

All calls but `exit_thread` write `current` before they change stacks. So `current` follows the CPU as
long as nobody exits, every saved stack is that of the thread it is saved in, and the flag
`THREAD_SUSPEND` is right as long as nobody switches to a suspended thread without taking the flag
away. -/

namespace Yaos

open Chains

/-- `current` is the thread on whose stack the CPU runs, and that thread is neither done nor
    suspended. -/
def Cpu.Runs (s : Cpu) : Prop :=
  s.current = s.stack ∧ (s.threads s.current).state ≠ .done ∧ (s.threads s.current).suspend = false

/-- The way up from a thread over suspended threads only. -/
def Cpu.asleepUp (s : Cpu) (t : Nat) : Option Nat :=
  if (s.threads t).suspend then (s.threads t).parent else none

/-- What a call needs of the state it is made in:
    `resume_thread` a thread that is done or not suspended, `yield_thread` a parent that is not
    suspended, `suspend_thread` an ancestor other than itself that is not suspended, `wake_up_thread`
    no suspended thread that is done. `exit_thread` does not switch `current` at all. -/
def ThreadCall.Safe (s : Cpu) : ThreadCall → Prop
  | .resume p => (s.threads p).state = .done ∨ (s.threads p).suspend = false
  | .yield => ∀ p, (s.threads s.current).parent = some p → (s.threads p).suspend = false
  | .suspend => ¬ Visits s.asleepUp (s.threads s.current).parent s.current
  | .wakeUp p => (s.threads p).state = .done → (s.threads p).suspend = false
  | .exit => False

/-- Each call that comes back is safe in the state it is made in. -/
def AllCallsSafe (fuel : Nat) : Cpu → List ThreadCall → Prop
  | _, [] => True
  | s, c :: cs => ∀ s', threadCall fuel s c = .ok s' → c.Safe s ∧ AllCallsSafe fuel s' cs

/-- A running CPU with saved stacks in their places, where no thread is its own parent. -/
structure Cpu.Sound (s : Cpu) : Prop where
  runs : s.Runs
  own : ∀ t owner, (s.threads t).rsp = some owner → owner = t
  noSelf : ∀ t, (s.threads t).parent ≠ some t

/-! ## One switch -/

/-- What the end of a call does: it stores the stack in `old` and goes to `p`. -/
structure Switched (s s' : Cpu) (p old : Nat) (mark : Bool) : Prop where
  current : s'.current = s.current
  stack : s'.stack = p ∨ (s.threads p).rsp = some s'.stack
  suspend : ∀ t, (s'.threads t).suspend = (s.threads t).suspend
  parent : ∀ t, (s'.threads t).parent = (s.threads t).parent
  rspOld : (s'.threads old).rsp = some s.stack
  rsp : ∀ t, t ≠ old → (s'.threads t).rsp = (s.threads t).rsp
  state : ∀ t, t ≠ p → (s'.threads t).state = (s.threads t).state
  target : (mark = true ∨ (s.threads p).state = .ready) ∧ (s'.threads p).state = .run ∨
    mark = false ∧ (s'.threads p).state = (s.threads p).state

theorem switched_setState {s : Cpu} {p owner : Nat} (old : Nat) {mark : Bool}
    (howner : owner = p ∨ (s.threads p).rsp = some owner)
    (hmark : mark = true ∨ (s.threads p).state = .ready) :
    Switched s ((s.setState p .run).switchStack old owner) p old mark where
  current := rfl
  stack := howner
  suspend t := by simp
  parent t := by simp
  rspOld := by simp [Cpu.switchStack, Cpu.set, Cpu.setState]
  rsp t ht := by
    rw [Cpu.switchStack, Cpu.set]
    dsimp only
    rw [Function.update_of_ne ht, setState_rsp]
  state t ht := by
    rw [switchStack_state, Cpu.setState, Cpu.set]
    dsimp only
    rw [Function.update_of_ne ht]
  target := by
    refine .inl ⟨hmark, ?_⟩
    rw [switchStack_state, Cpu.setState, Cpu.set]
    dsimp only
    rw [Function.update_self]

theorem switched_self {s : Cpu} {p owner : Nat} (old : Nat)
    (howner : (s.threads p).rsp = some owner) :
    Switched s (s.switchStack old owner) p old false where
  current := rfl
  stack := .inr howner
  suspend t := by simp
  parent t := by simp
  rspOld := by simp [Cpu.switchStack, Cpu.set]
  rsp t ht := by
    rw [Cpu.switchStack, Cpu.set]
    dsimp only
    rw [Function.update_of_ne ht]
  state t _ := by simp
  target := .inr ⟨rfl, by simp⟩

theorem threadSwitchTo_ok {s s' : Cpu} {p old : Nat} (h : threadSwitchTo s p old = .ok s') :
    ∃ owner, (s.threads p).rsp = some owner ∧ s' = s.switchStack old owner := by
  rw [threadSwitchTo] at h
  cases hrsp : (s.threads p).rsp with
  | none =>
      rw [hrsp] at h
      cases h
  | some owner =>
      rw [hrsp] at h
      obtain ⟨-, heq⟩ := assert_bind_eq_ok.1 h
      exact ⟨owner, rfl, (Except.ok.inj heq).symm⟩

theorem switchThread_switched {s s' : Cpu} {p old : Nat} {mark : Bool}
    (h : switchThread s p old mark = .ok s') : Switched s s' p old mark := by
  rw [switchThread] at h
  split at h
  case isTrue hready =>
    obtain ⟨-, heq⟩ := assert_bind_eq_ok.1 h
    obtain rfl := Except.ok.inj heq
    exact switched_setState old (.inl rfl) (.inr hready)
  case isFalse =>
    cases mark with
    | true =>
        obtain ⟨owner, hrsp, rfl⟩ := threadSwitchTo_ok h
        rw [if_pos rfl, setState_rsp] at hrsp
        exact switched_setState old (.inr hrsp) (.inl rfl)
    | false =>
        obtain ⟨owner, hrsp, rfl⟩ := threadSwitchTo_ok h
        exact switched_self old hrsp

/-! ## One call -/

/-- A switch from the running thread keeps every saved stack in its place. -/
theorem Switched.own {s s' : Cpu} {p old : Nat} {mark : Bool} (h : Switched s s' p old mark)
    (hstack : s.stack = old) (hown : ∀ t owner, (s.threads t).rsp = some owner → owner = t) :
    ∀ t owner, (s'.threads t).rsp = some owner → owner = t := by
  intro t owner ht
  by_cases hold : t = old
  · rw [hold, h.rspOld] at ht
    rw [hold, ← hstack]
    exact (Option.some.inj ht).symm
  · rw [h.rsp t hold] at ht
    exact hown t owner ht

theorem Switched.stack_eq {s s' : Cpu} {p old : Nat} {mark : Bool} (h : Switched s s' p old mark)
    (hown : ∀ t owner, (s.threads t).rsp = some owner → owner = t) : s'.stack = p := by
  rcases h.stack with heq | hrsp
  · exact heq
  · exact hown p _ hrsp

/-- After a switch to `p` with `current` set to it, the CPU runs `p` properly if `p` is not suspended
    and either marked or not done before. -/
theorem Switched.runs_iff {s s' : Cpu} {p old : Nat} {mark : Bool} (h : Switched s s' p old mark)
    (hcur : s.current = p) (hown : ∀ t owner, (s.threads t).rsp = some owner → owner = t) :
    s'.Runs ↔ (mark = false → (s.threads p).state ≠ .done) ∧ (s.threads p).suspend = false := by
  have hcur' : s'.current = p := h.current.trans hcur
  rw [Cpu.Runs, hcur', h.stack_eq hown, h.suspend]
  rcases h.target with ⟨hmark, hrun⟩ | ⟨hmark, hsame⟩
  · have hdone : mark = false → (s.threads p).state ≠ .done := by
      rintro rfl
      rcases hmark with hmark | hready
      · cases hmark
      · simp [hready]
    rw [hrun]
    exact ⟨fun hruns => ⟨hdone, hruns.2.2⟩, fun hruns => ⟨rfl, by simp, hruns.2⟩⟩
  · simp [hsame, hmark]

/-- What a call that comes back leaves, safe or not, and what makes it safe. -/
structure AfterThreadCall (s s' : Cpu) (c : ThreadCall) : Prop where
  own : ∀ t owner, (s'.threads t).rsp = some owner → owner = t
  noSelf : ∀ t, (s'.threads t).parent ≠ some t
  runs_iff : s'.Runs ↔ c.Safe s

theorem setParent_noSelf {s : Cpu} {p q : Nat} (hne : q ≠ p)
    (h : ∀ t, (s.threads t).parent ≠ some t) : ∀ t, ((s.setParent p q).threads t).parent ≠ some t := by
  intro t
  by_cases ht : t = p
  · rw [ht, Cpu.setParent, Cpu.set]
    dsimp only
    rw [Function.update_self]
    exact fun heq => hne (Option.some.inj heq)
  · rw [Cpu.setParent, Cpu.set]
    dsimp only
    rw [Function.update_of_ne ht]
    exact h t

section Calls

variable {s s' : Cpu}

/-- A call that leaves everything as it is. -/
theorem Cpu.Sound.same (h : s.Sound) {c : ThreadCall} (hc : c.Safe s) : AfterThreadCall s s c :=
  ⟨h.own, h.noSelf, iff_of_true h.runs hc⟩

theorem Cpu.Sound.resume (h : s.Sound) {p : Nat} (hrun : resumeThread s p = .ok s') :
    AfterThreadCall s s' (.resume p) := by
  rw [resumeThread] at hrun
  split at hrun
  case isTrue hdone =>
      obtain rfl := Except.ok.inj hrun
      exact h.same (.inl hdone)
  case isFalse hdone =>
      obtain ⟨hne, hrun⟩ := assert_bind_eq_ok.1 hrun
      have hsw := switchThread_switched hrun
      have hown : ∀ t owner, (((s.setParent p s.current).setCurrent p).threads t).rsp = some owner →
          owner = t := fun t owner ht => h.own t owner (by simpa [Cpu.setCurrent] using ht)
      refine ⟨hsw.own h.runs.1.symm hown, fun t => ?_, ?_⟩
      · rw [hsw.parent]
        exact setParent_noSelf hne h.noSelf t
      · rw [hsw.runs_iff rfl hown]
        simp only [Cpu.setCurrent, setParent_state, setParent_suspend]
        constructor
        · exact fun hruns => .inr hruns.2
        · rintro (hd | hsuspend)
          · exact absurd hd hdone
          · exact ⟨fun _ => hdone, hsuspend⟩

theorem Cpu.Sound.yield (h : s.Sound) (hrun : yieldThread s = .ok s') :
    AfterThreadCall s s' .yield := by
  obtain ⟨-, hrun⟩ := assert_bind_eq_ok.1 hrun
  split at hrun
  case h_1 => cases hrun
  case h_2 p hp =>
      have hsw := switchThread_switched hrun
      refine ⟨hsw.own h.runs.1.symm h.own, fun t => ?_, ?_⟩
      · rw [hsw.parent]
        exact h.noSelf t
      · rw [hsw.runs_iff rfl h.own, ThreadCall.Safe, hp]
        constructor
        · rintro ⟨-, hsuspend⟩ q hq
          obtain rfl := Option.some.inj hq
          exact hsuspend
        · exact fun hall => ⟨by simp, hall p rfl⟩

/-- `suspend_thread` stops at the first ancestor that is not suspended. -/
theorem firstAwake_some {fuel : Nat} {head : Option Nat} {p : Nat}
    (h : firstAwake s fuel head = .ok (some p)) :
    (s.threads p).suspend = false ∧
      ∀ t, (s.threads t).suspend = false → (Visits s.asleepUp head t ↔ t = p) := by
  induction fuel generalizing head with
  | zero => cases head <;> cases h
  | succ fuel ih =>
      cases head with
      | none => cases h
      | some q =>
          rw [firstAwake] at h
          split at h
          case isTrue hq =>
              have hup : s.asleepUp q = (s.threads q).parent := if_pos hq
              obtain ⟨hp, hall⟩ := ih h
              refine ⟨hp, fun t ht => ?_⟩
              rw [← hall t ht, ← hup]
              constructor
              · rintro (_ | hv)
                · rw [hq] at ht
                  cases ht
                · exact hv
              · exact .there
          case isFalse hq =>
              obtain rfl := Option.some.inj (Except.ok.inj h)
              refine ⟨by simpa using hq, fun t ht => ⟨?_, ?_⟩⟩
              · rintro (_ | hv)
                · rfl
                · rw [Cpu.asleepUp, if_neg hq] at hv
                  cases hv
              · rintro rfl
                exact .here _

theorem Cpu.Sound.suspend (h : s.Sound) {fuel : Nat} (hrun : suspendThread fuel s = .ok s') :
    AfterThreadCall s s' .suspend := by
  obtain ⟨-, hrun⟩ := assert_bind_eq_ok.1 hrun
  obtain ⟨r, hr, hrun⟩ := bind_eq_ok.1 hrun
  cases r with
  | none => cases hrun
  | some p =>
      obtain ⟨-, hrun⟩ := assert_bind_eq_ok.1 hrun
      obtain ⟨hp, hall⟩ := firstAwake_some hr
      have hsw := switchThread_switched hrun
      have hown : ∀ t owner, (((s.setSuspend s.current true).setCurrent p).threads t).rsp =
          some owner → owner = t := fun t owner ht =>
        h.own t owner (by simpa [Cpu.setCurrent] using ht)
      refine ⟨hsw.own h.runs.1.symm hown, fun t => ?_, ?_⟩
      · rw [hsw.parent]
        simpa [Cpu.setCurrent] using h.noSelf t
      · rw [hsw.runs_iff rfl hown, ThreadCall.Safe, hall s.current h.runs.2.2]
        constructor
        · rintro ⟨-, hsuspend⟩ heq
          rw [← heq, Cpu.setCurrent, Cpu.setSuspend, Cpu.set] at hsuspend
          dsimp only at hsuspend
          rw [Function.update_self] at hsuspend
          cases hsuspend
        · intro hne
          refine ⟨by simp, ?_⟩
          rw [Cpu.setCurrent, Cpu.setSuspend, Cpu.set]
          dsimp only
          rw [Function.update_of_ne (Ne.symm hne)]
          exact hp

theorem Cpu.Sound.wakeUp (h : s.Sound) {fuel p : Nat} (hrun : wakeUpThread fuel s p = .ok s') :
    AfterThreadCall s s' (.wakeUp p) := by
  rw [wakeUpThread] at hrun
  split at hrun
  case isTrue hp =>
      obtain rfl := Except.ok.inj hrun
      exact h.same fun _ => hp ▸ h.runs.2.2
  case isFalse hp =>
  split at hrun
  case isTrue hinit =>
      obtain rfl := Except.ok.inj hrun
      refine h.same fun hdone => ?_
      rw [hinit] at hdone
      cases hdone
  case isFalse hinit =>
  split at hrun
  case isTrue hawake =>
      obtain ⟨found, -, hrun⟩ := bind_eq_ok.1 hrun
      obtain ⟨-, hrun⟩ := assert_bind_eq_ok.1 hrun
      obtain rfl := Except.ok.inj hrun
      exact h.same fun _ => hawake
  case isFalse hasleep =>
      have hsw := switchThread_switched hrun
      have hown : ∀ t owner, ((((s.setSuspend p false).setCurrent p).setParent p s.current).threads
          t).rsp = some owner → owner = t := fun t owner ht =>
        h.own t owner (by simpa [Cpu.setCurrent] using ht)
      have hnoSelf : ∀ t, (((s.setSuspend p false).setCurrent p).threads t).parent ≠ some t :=
        fun t => by simpa [Cpu.setCurrent] using h.noSelf t
      have hawake : ((((s.setSuspend p false).setCurrent p).setParent p s.current).threads
          p).suspend = false := by
        rw [setParent_suspend]
        simp [Cpu.setCurrent, Cpu.setSuspend, Cpu.set]
      refine ⟨hsw.own h.runs.1.symm hown, fun t => ?_, ?_⟩
      · rw [hsw.parent]
        exact setParent_noSelf (Ne.symm hp) hnoSelf t
      · rw [hsw.runs_iff rfl hown, setParent_state]
        constructor
        · exact fun hruns hdone => absurd (by simpa [Cpu.setCurrent] using hdone) (hruns.1 rfl)
        · intro hsafe
          refine ⟨fun _ hdone => hasleep (hsafe (by simpa [Cpu.setCurrent] using hdone)), hawake⟩

theorem Cpu.Sound.exit (h : s.Sound) (hrun : exitThread s = .ok s') :
    AfterThreadCall s s' .exit := by
  rw [exitThread] at hrun
  split at hrun
  case h_1 => cases hrun
  case h_2 p hp =>
      have hsw := switchThread_switched hrun
      have hown : ∀ t owner, ((s.setState s.current .done).threads t).rsp = some owner →
          owner = t := fun t owner ht => h.own t owner (by simpa using ht)
      refine ⟨hsw.own h.runs.1.symm hown, fun t => ?_, ?_⟩
      · rw [hsw.parent]
        simpa using h.noSelf t
      · have hne : s.current ≠ p := fun heq => h.noSelf s.current (by rw [hp, heq])
        refine iff_of_false (fun hruns => hruns.2.1 ?_) id
        rw [hsw.current]
        show (s'.threads s.current).state = .done
        rw [hsw.state _ hne, Cpu.setState, Cpu.set]
        dsimp only
        rw [Function.update_self]

theorem Cpu.Sound.call (h : s.Sound) {fuel : Nat} {c : ThreadCall}
    (hrun : threadCall fuel s c = .ok s') : AfterThreadCall s s' c := by
  cases c with
  | resume p => exact h.resume hrun
  | yield => exact h.yield hrun
  | suspend => exact h.suspend hrun
  | wakeUp p => exact h.wakeUp hrun
  | exit => exact h.exit hrun

end Calls

/-! ## Runs -/

theorem threadCalls_cons {fuel : Nat} {s s₁ : Cpu} {c : ThreadCall}
    (h : threadCall fuel s c = .ok s₁) (cs : List ThreadCall) :
    threadCalls fuel s (c :: cs) = threadCalls fuel s₁ cs := by
  rw [threadCalls, List.foldlM_cons, h, ok_bind, threadCalls]

/-- In every state that any calls lead to, `current` is the running thread and may run, exactly when
    every call that comes back was safe. -/
theorem current_runs_iff (fuel : Nat) (s : Cpu) (cs : List ThreadCall) (h : s.Sound) :
    (∀ pre, pre <+: cs → ∀ s', threadCalls fuel s pre = .ok s' → s'.Runs) ↔
      AllCallsSafe fuel s cs := by
  induction cs generalizing s with
  | nil =>
      refine iff_of_true (fun pre hpre s' hs' => ?_) trivial
      obtain rfl := List.prefix_nil.1 hpre
      obtain rfl := Except.ok.inj hs'
      exact h.runs
  | cons c cs ih =>
      constructor
      · intro hall s₁ hs₁
        have hafter := h.call hs₁
        have hruns : s₁.Runs := hall [c] (by simp) s₁ (threadCalls_cons hs₁ [])
        refine ⟨hafter.runs_iff.1 hruns, (ih s₁ ⟨hruns, hafter.own, hafter.noSelf⟩).1 ?_⟩
        intro pre hpre s' hs'
        refine hall (c :: pre) (List.cons_prefix_cons.2 ⟨rfl, hpre⟩) s' ?_
        rw [threadCalls_cons hs₁]
        exact hs'
      · rintro hsafe (_ | ⟨d, pre⟩) hpre s' hs'
        · obtain rfl := Except.ok.inj hs'
          exact h.runs
        · obtain ⟨rfl, hpre'⟩ := List.cons_prefix_cons.1 hpre
          rw [threadCalls, List.foldlM_cons] at hs'
          obtain ⟨s₁, hs₁, hrest⟩ := bind_eq_ok.1 hs'
          obtain ⟨hc, hcs⟩ := hsafe s₁ hs₁
          have hafter := h.call hs₁
          exact (ih s₁ ⟨hafter.runs_iff.2 hc, hafter.own, hafter.noSelf⟩).2 hcs pre hpre' s' hrest

/-! ## The set-up -/

/-- The state in which the set-up of `s` resumes `idle`. -/
structure SetUp (s s' : Cpu) (idle kmain : Nat) : Prop where
  ne : kmain ≠ idle
  current : s'.current = kmain
  stack : s'.stack = kmain
  kmain_eq : s'.threads kmain = { state := .run, suspend := false, parent := some idle
                                  rsp := some kmain, mapped := true, inZone := true }
  idle_state : (s'.threads idle).state ≠ .done
  idle_suspend : (s'.threads idle).suspend = false
  idle_parent : (s'.threads idle).parent = none
  idle_rsp : ∀ owner, (s'.threads idle).rsp = some owner → owner = idle
  others : ∀ t, t ≠ idle → t ≠ kmain → s'.threads t = s.threads t

theorem initIdleThread_idle (s : Cpu) (idle : Nat) (avail : Bool) :
    ((initIdleThread s idle avail).2.threads idle).state ≠ .done ∧
      ((initIdleThread s idle avail).2.threads idle).suspend = false ∧
      ((initIdleThread s idle avail).2.threads idle).parent = none ∧
      ∀ owner, ((initIdleThread s idle avail).2.threads idle).rsp = some owner → owner = idle := by
  cases avail <;> simp [initIdleThread, createThreadOncpu, Cpu.set]

theorem initIdleThread_other (s : Cpu) (idle : Nat) (avail : Bool) (t : Nat) (ht : t ≠ idle) :
    (initIdleThread s idle avail).2.threads t = s.threads t := by
  cases avail <;> simp [initIdleThread, createThreadOncpu, Cpu.set, ht]

theorem initThreadCall_setUp {s s' : Cpu} {idle kmain : Nat} {avail : Nat → Bool}
    (h : initThreadCall s idle kmain avail = .ok (0, s')) :
    ∃ s₀, SetUp s s₀ idle kmain ∧ resumeThread s₀ idle = .ok s' := by
  rw [initThreadCall, initKmainThread] at h
  cases hk : avail kmain with
  | false =>
      rw [hk] at h
      exact absurd (Prod.mk.inj (Except.ok.inj h)).1 (by decide)
  | true =>
      rw [hk] at h
      obtain ⟨s₁, hresume, heq⟩ := bind_eq_ok.1 h
      obtain ⟨-, rfl⟩ := Prod.mk.inj (Except.ok.inj heq)
      refine ⟨_, ?_, hresume⟩
      -- `kmain` runs, so `resume_thread` does not come back for `kmain` itself
      have hne : kmain ≠ idle := by
        rintro rfl
        rw [resumeThread, if_neg (by simp [Cpu.setState, Cpu.set])] at hresume
        exact (assert_bind_eq_ok.1 hresume).1 rfl
      obtain ⟨hstate, hsuspend, hparent, hrsp⟩ := initIdleThread_idle s idle (avail idle)
      have hother := initIdleThread_other s idle (avail idle)
      generalize (initIdleThread s idle (avail idle)).2 = s₂ at hstate hsuspend hparent hrsp hother
      refine ⟨hne, rfl, rfl, ?_, ?_, ?_, ?_, ?_, fun t hi hk => ?_⟩
      · simp [Cpu.setState, Cpu.set, Cpu.setCurrent]
      · simpa [Cpu.setState, Cpu.set, Cpu.setCurrent, hne.symm] using hstate
      · simpa [Cpu.setState, Cpu.set, Cpu.setCurrent, hne.symm] using hsuspend
      · simpa [Cpu.setState, Cpu.set, Cpu.setCurrent, hne.symm] using hparent
      · simpa [Cpu.setState, Cpu.set, Cpu.setCurrent, hne.symm] using hrsp
      · simpa [Cpu.setState, Cpu.set, Cpu.setCurrent, hk] using hother t hi

theorem initThreadCall_sound {s s' : Cpu} {idle kmain : Nat} {avail : Nat → Bool}
    (hown : ∀ t owner, (s.threads t).rsp = some owner → owner = t)
    (hself : ∀ t, (s.threads t).parent ≠ some t)
    (h : initThreadCall s idle kmain avail = .ok (0, s')) : s'.Sound := by
  obtain ⟨s₀, hup, hresume⟩ := initThreadCall_setUp h
  have hthread : ∀ t, t = idle ∨ t = kmain ∨ s₀.threads t = s.threads t := by
    intro t
    by_cases hi : t = idle
    · exact .inl hi
    · by_cases hk : t = kmain
      · exact .inr (.inl hk)
      · exact .inr (.inr (hup.others t hi hk))
  have hsound : s₀.Sound := by
    refine ⟨⟨?_, ?_, ?_⟩, fun t owner ht => ?_, fun t => ?_⟩
    · rw [hup.current, hup.stack]
    · rw [hup.current, hup.kmain_eq]
      simp
    · rw [hup.current, hup.kmain_eq]
    · rcases hthread t with rfl | rfl | heq
      · exact hup.idle_rsp owner ht
      · rw [hup.kmain_eq] at ht
        exact (Option.some.inj ht).symm
      · rw [heq] at ht
        exact hown t owner ht
    · rcases hthread t with rfl | rfl | heq
      · simp [hup.idle_parent]
      · rw [hup.kmain_eq]
        exact fun heq => hup.ne (Option.some.inj heq).symm
      · rw [heq]
        exact hself t
  have hafter := hsound.resume hresume
  exact ⟨hafter.runs_iff.2 (.inr hup.idle_suspend), hafter.own, hafter.noSelf⟩

/-- A CPU after its set-up: thread 0 is `idle` and runs, thread 1 is `kmain`, and the others have been
    created and never ran. -/
def bootCpu : Cpu where
  threads
    | 0 => { state := .run, suspend := false, parent := some 1, rsp := some 0, mapped := true
             inZone := true }
    | 1 => { state := .run, suspend := false, parent := some 0, rsp := some 1, mapped := true
             inZone := true }
    | t + 2 => { state := .ready, suspend := false, parent := none, rsp := some (t + 2)
                 mapped := true, inZone := true }
  current := 0
  stack := 0

theorem bootCpu_sound : bootCpu.Sound := by
  refine ⟨⟨rfl, by decide, rfl⟩, fun t owner ht => ?_, fun t => ?_⟩
  · match t with
    | 0 => exact (Option.some.inj ht).symm
    | 1 => exact (Option.some.inj ht).symm
    | t + 2 => exact (Option.some.inj ht).symm
  · match t with
    | 0 => decide
    | 1 => decide
    | t + 2 => simp [bootCpu]

/-- `idle` yields to `kmain`, which resumes thread 2; that one suspends itself and is woken up. -/
theorem current_runs_resume_suspend :
    ∃ s', threadCalls 1 bootCpu [.yield, .resume 2, .suspend, .wakeUp 2] = .ok s' ∧ s'.Runs := by
  have hall := (current_runs_iff 1 bootCpu [.yield, .resume 2, .suspend, .wakeUp 2] bootCpu_sound).2
  refine ⟨_, rfl, hall (fun s₁ h₁ => ?_) _ List.prefix_rfl _ rfl⟩
  obtain rfl := Except.ok.inj h₁
  refine ⟨fun p hp => ?_, fun s₂ h₂ => ?_⟩
  · obtain rfl : 1 = p := Option.some.inj hp
    rfl
  obtain rfl := Except.ok.inj h₂
  refine ⟨.inr rfl, fun s₃ h₃ => ?_⟩
  obtain rfl := Except.ok.inj h₃
  refine ⟨?_, fun s₄ h₄ => ?_⟩
  · rintro (_ | hv)
    cases hv
  refine ⟨fun hdone => ?_, trivial⟩
  cases hdone

/-- Thread 2 exits and `kmain` goes on, but `current` is still thread 2. -/
theorem current_stale_exit :
    ¬ ∀ s', threadCalls 0 bootCpu [.yield, .resume 2, .exit] = .ok s' → s'.Runs := by
  intro hall
  have hruns := hall _ rfl
  exact absurd hruns.1 (by decide)

end Yaos
