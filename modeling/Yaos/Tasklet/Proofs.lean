import Mathlib.Data.List.Count
import Yaos.Tasklet

set_option autoImplicit false

/-! # No tasklet is lost or run twice

Every scheduled tasklet is in one place: one of the two lists, or the list that the action at work has
taken. The two lists are queues with a right tail, and this is what
`__tasklet_hi_schedule_first` breaks when it puts a tasklet into an empty list. -/

namespace Yaos

open Chains

/-- Each list has its tail right, every scheduled tasklet can be reached from its list or from what the
    action at work has in hand, and apart from that every scheduling has led to one call. -/
structure Tasklets.Good (s : Tasklets) : Prop where
  ends : ∀ hi, ∃ q, Queue s.next (s.vecs hi).head (s.vecs hi).tail q
  reach : ∀ t, (s.tasklets t).sched = true → Visits s.next (s.vecs (s.kind t)).head t ∨
    ∃ l, s.list = some (s.kind t, l) ∧ Visits s.next l t
  once : ∀ t, s.scheduled.count t = s.calls.count t + if (s.tasklets t).sched then 1 else 0

/-- `__tasklet_hi_schedule_first` finds a tasklet on its list. -/
def TaskletStep.Safe (s : Tasklets) : TaskletStep → Prop
  | .scheduleFirst t => (s.tasklets t).sched = true ∨ (s.vecs true).head ≠ none
  | _ => True

/-! ## Where a tasklet is -/

/-- Where a tasklet that is scheduled can be: on one of the lists, or taken off by the action. -/
inductive TaskletPlace
  | queue (hi : Bool)
  | hand
deriving DecidableEq

/-- The lists `q` and the list `h` in hand hold the scheduled tasklets, each in one place. `loose` is a
    tasklet that is between two places. -/
structure TaskletsAt (s : Tasklets) (loose : Option Nat) (q : Bool → List Nat) (h : List Nat)
    (place : Nat → Option TaskletPlace) : Prop where
  queue : ∀ hi, Queue s.next (s.vecs hi).head (s.vecs hi).tail (q hi)
  hand : Chain s.next (s.list.bind Prod.snd) h
  mem_queue : ∀ hi t, t ∈ q hi ↔ place t = some (.queue hi)
  mem_hand : ∀ t, t ∈ h ↔ place t = some .hand
  loose_place : ∀ t, loose = some t → place t = none
  sched : ∀ t, (s.tasklets t).sched = true ↔ place t ≠ none ∨ loose = some t
  kind_queue : ∀ t hi, place t = some (.queue hi) → s.kind t = hi
  kind_hand : ∀ t, place t = some .hand → ∃ l, s.list = some (s.kind t, l)
  once : ∀ t, s.scheduled.count t = s.calls.count t + if (s.tasklets t).sched then 1 else 0

section Moves

variable {s : Tasklets} {q : Bool → List Nat} {h : List Nat} {place : Nat → Option TaskletPlace} {t : Nat}
  {hi : Bool}

theorem TaskletsAt.good (hp : TaskletsAt s none q h place) : s.Good := by
  refine ⟨fun hi => ⟨q hi, hp.queue hi⟩, fun t ht => ?_, hp.once⟩
  cases hplace : place t with
  | none => exact absurd ((hp.sched t).1 ht) (by simp [hplace])
  | some w =>
      cases w with
      | queue hi =>
          left
          rw [hp.kind_queue t hi hplace]
          exact (hp.queue hi).chain.visits_iff.2 ((hp.mem_queue hi t).2 hplace)
      | hand =>
          obtain ⟨l, hl⟩ := hp.kind_hand t hplace
          have hv := hp.hand.visits_iff.2 ((hp.mem_hand t).2 hplace)
          rw [hl] at hv
          exact .inr ⟨l, hl, hv⟩

theorem setNext_next_eq (s : Tasklets) (t : Nat) (link : Option Nat) :
    (s.setNext t link).next = Function.update s.next t link := by
  funext u
  by_cases hu : u = t
  · subst hu
    simp [Tasklets.next, Tasklets.setNext, Tasklets.set]
  · simp [Tasklets.next, Tasklets.setNext, Tasklets.set, Function.update_of_ne hu]

/-- A write to a field other than the link concerns no list. -/
theorem set_next_eq {v : Tasklet} (hv : v.next = s.next t) : (s.set t v).next = s.next := by
  funext u
  by_cases hu : u = t
  · subst hu
    simp [Tasklets.next, Tasklets.set, hv]
  · simp [Tasklets.next, Tasklets.set, Function.update_of_ne hu]

theorem setNext_sched (s : Tasklets) (t u : Nat) (link : Option Nat) :
    ((s.setNext t link).tasklets u).sched = (s.tasklets u).sched := by
  by_cases hu : u = t
  · subst hu
    simp [Tasklets.setNext, Tasklets.set]
  · simp [Tasklets.setNext, Tasklets.set, Function.update_of_ne hu]

theorem TaskletsAt.not_mem_queue (hp : TaskletsAt s (some t) q h place) (hi : Bool) : t ∉ q hi := by
  rw [hp.mem_queue, hp.loose_place t rfl]
  simp

theorem TaskletsAt.not_mem_hand (hp : TaskletsAt s (some t) q h place) : t ∉ h := by
  rw [hp.mem_hand, hp.loose_place t rfl]
  simp

/-- The tasklet that is between two places is put on the list `hi`, as `q'`. The links, the ends of
    that list and nothing else have changed. -/
theorem TaskletsAt.settle (hp : TaskletsAt s (some t) q h place) (hkind : s.kind t = hi) {s' : Tasklets}
    {q' : List Nat} (hq' : ∀ u, u ∈ q' ↔ u = t ∨ u ∈ q hi)
    (hqueue : Queue s'.next (s'.vecs hi).head (s'.vecs hi).tail q')
    (hvecs : ∀ hi', hi' ≠ hi → s'.vecs hi' = s.vecs hi')
    (hnext : ∀ u, u ≠ t → u ∉ q hi → s'.next u = s.next u) (hlist : s'.list = s.list)
    (hsched : ∀ u, (s'.tasklets u).sched = (s.tasklets u).sched) (hkinds : s'.kind = s.kind)
    (hscheduled : s'.scheduled = s.scheduled) (hcalls : s'.calls = s.calls) :
    TaskletsAt s' none (Function.update q hi q') h (Function.update place t (some (.queue hi))) := by
  -- the link that changed is on the list `hi`, so every other list is still a chain
  have hkeep : ∀ u, u ∉ q hi → u ≠ t → s'.next u = s.next u := fun u hu hut => hnext u hut hu
  refine ⟨fun hi' => ?_, ?_, fun hi' u => ?_, fun u => ?_, fun u hu => ?_, fun u => ?_,
    fun u hi' hu => ?_, fun u hu => ?_, fun u => ?_⟩
  · by_cases heq : hi' = hi
    · subst heq
      rw [Function.update_self]
      exact hqueue
    · rw [Function.update_of_ne heq, hvecs hi' heq]
      refine (hp.queue hi').congr fun u hu => hkeep u (fun hmem => ?_) fun hut => ?_
      · rw [hp.mem_queue] at hu hmem
        rw [hu] at hmem
        exact heq (TaskletPlace.queue.inj (Option.some.inj hmem))
      · exact hp.not_mem_queue hi' (hut ▸ hu)
  · rw [hlist]
    refine hp.hand.congr fun u hu => hkeep u (fun hmem => ?_) fun hut => ?_
    · rw [hp.mem_queue] at hmem
      rw [hp.mem_hand, hmem] at hu
      cases hu
    · exact hp.not_mem_hand (hut ▸ hu)
  · by_cases hut : u = t
    · subst hut
      rw [Function.update_self]
      by_cases heq : hi' = hi
      · subst heq
        rw [Function.update_self, hq']
        simp
      · rw [Function.update_of_ne heq]
        refine iff_of_false (hp.not_mem_queue hi') fun hplace => heq ?_
        exact (TaskletPlace.queue.inj (Option.some.inj hplace)).symm
    · rw [Function.update_of_ne hut]
      by_cases heq : hi' = hi
      · subst heq
        rw [Function.update_self, hq', ← hp.mem_queue]
        simp [hut]
      · rw [Function.update_of_ne heq]
        exact hp.mem_queue hi' u
  · by_cases hut : u = t
    · subst hut
      rw [Function.update_self]
      exact iff_of_false hp.not_mem_hand (by simp)
    · rw [Function.update_of_ne hut]
      exact hp.mem_hand u
  · cases hu
  · rw [hsched, hp.sched]
    by_cases hut : u = t
    · subst hut
      simp
    · rw [Function.update_of_ne hut]
      simp [Ne.symm hut]
  · rw [hkinds]
    by_cases hut : u = t
    · subst hut
      rw [Function.update_self] at hu
      rw [hkind]
      exact TaskletPlace.queue.inj (Option.some.inj hu)
    · rw [Function.update_of_ne hut] at hu
      exact hp.kind_queue u hi' hu
  · rw [hlist, hkinds]
    by_cases hut : u = t
    · subst hut
      rw [Function.update_self] at hu
      cases hu
    · rw [Function.update_of_ne hut] at hu
      exact hp.kind_hand u hu
  · rw [hscheduled, hcalls, hsched]
    exact hp.once u

/-- `*tail = t;` on either kind of list. -/
theorem TaskletsAt.append (hp : TaskletsAt s (some t) q h place) (hkind : s.kind t = hi) :
    TaskletsAt (s.append hi t) none (Function.update q hi (q hi ++ [t])) h
      (Function.update place t (some (.queue hi))) := by
  have hqueue := hp.queue hi
  have hmem : ∀ u, u ∈ q hi ++ [t] ↔ u = t ∨ u ∈ q hi := fun u => by simp [or_comm]
  cases htail : (s.vecs hi).tail with
  | none =>
      have heq : s.append hi t = (s.setNext t none).setVec hi { head := some t, tail := some t } := by
        rw [Tasklets.append]
        simp only [Tasklets.setNext, Tasklets.set, htail]
      rw [heq]
      rw [htail] at hqueue
      refine hp.settle hkind hmem ?_ (fun hi' hne => ?_) (fun u hut _ => ?_) rfl
        (setNext_sched s t · none) rfl rfl rfl
      · show Queue (s.setNext t none).next (Function.update s.vecs hi _ hi).head
          (Function.update s.vecs hi _ hi).tail _
        rw [setNext_next_eq, Function.update_self]
        exact hqueue.append_none
      · exact Function.update_of_ne hne ..
      · show (s.setNext t none).next u = _
        rw [setNext_next_eq, Function.update_of_ne hut]
  | some u =>
      have heq : s.append hi t = ((s.setNext t none).setNext u (some t)).setVec hi
          { head := (s.vecs hi).head, tail := some t } := by
        rw [Tasklets.append]
        simp only [Tasklets.setNext, Tasklets.set, htail]
      rw [heq]
      rw [htail] at hqueue
      refine hp.settle hkind hmem ?_ (fun hi' hne => ?_) (fun v hvt hv => ?_) rfl
        (fun v => ?_) rfl rfl rfl
      · show Queue ((s.setNext t none).setNext u (some t)).next (Function.update s.vecs hi _ hi).head
          (Function.update s.vecs hi _ hi).tail _
        rw [setNext_next_eq, setNext_next_eq, Function.update_self]
        exact hqueue.append_some (hp.not_mem_queue hi)
      · exact Function.update_of_ne hne ..
      · have hvu : v ≠ u := fun heq => hv (heq ▸ hqueue.mem_of_tail)
        show ((s.setNext t none).setNext u (some t)).next v = _
        rw [setNext_next_eq, Function.update_of_ne hvu, setNext_next_eq, Function.update_of_ne hvt]
      · exact (setNext_sched _ u v _).trans (setNext_sched s t v none)

theorem TaskletsAt.pushFirst (hp : TaskletsAt s (some t) q h place) (hkind : s.kind t = true)
    (hne : (s.vecs true).head ≠ none) :
    TaskletsAt (s.pushFirst t) none (Function.update q true (t :: q true)) h
      (Function.update place t (some (.queue true))) := by
  have hqueue := hp.queue true
  refine hp.settle hkind (fun u => List.mem_cons) ?_ (fun hi' hne => ?_) (fun u hut _ => ?_) rfl
    (setNext_sched s t · _) rfl rfl rfl
  · show Queue (s.setNext t (s.vecs true).head).next (Function.update s.vecs true _ true).head
      (Function.update s.vecs true _ true).tail _
    rw [setNext_next_eq, Function.update_self]
    have hnot := hp.not_mem_queue true
    generalize q true = ids at hqueue hnot
    cases ids with
    | nil => exact absurd hqueue.chain hne
    | cons i ids => exact hqueue.cons hnot
  · exact Function.update_of_ne hne ..
  · show (s.setNext t (s.vecs true).head).next u = _
    rw [setNext_next_eq, Function.update_of_ne hut]

/-- A tasklet that gets the bit `TASKLET_STATE_SCHED` is on no list yet. -/
theorem TaskletsAt.mark (hp : TaskletsAt s none q h place) (ht : (s.tasklets t).sched = false) :
    TaskletsAt (s.mark hi t) (some t) q h place := by
  have hplace : place t = none := by
    by_contra hne
    rw [(hp.sched t).2 (.inl hne)] at ht
    cases ht
  have hnext : (s.mark hi t).next = s.next := set_next_eq rfl
  have hkind : ∀ u, u ≠ t → (s.mark hi t).kind u = s.kind u := fun u hu => Function.update_of_ne hu ..
  have hsched : ∀ u, u ≠ t → ((s.mark hi t).tasklets u).sched = (s.tasklets u).sched := by
    intro u hu
    simp [Tasklets.mark, Tasklets.set, Function.update_of_ne hu]
  have hself : ((s.mark hi t).tasklets t).sched = true := by simp [Tasklets.mark, Tasklets.set]
  have hother : ∀ u, place u ≠ none → u ≠ t := by
    rintro u hu rfl
    exact hu hplace
  refine ⟨fun hi' => ?_, ?_, hp.mem_queue, hp.mem_hand, fun u hu => ?_, fun u => ?_,
    fun u hi' hu => ?_, fun u hu => ?_, fun u => ?_⟩
  · rw [hnext]
    exact hp.queue hi'
  · rw [hnext]
    exact hp.hand
  · rw [← Option.some.inj hu, hplace]
  · by_cases hut : u = t
    · subst hut
      simp [hself]
    · rw [hsched u hut, hp.sched]
      simp [Ne.symm hut]
  · rw [hkind u (hother u (by simp [hu]))]
    exact hp.kind_queue u hi' hu
  · rw [hkind u (hother u (by simp [hu]))]
    exact hp.kind_hand u hu
  · by_cases hut : u = t
    · subst hut
      have hold := hp.once u
      rw [ht] at hold
      simp only [Tasklets.mark, List.count_append, List.count_singleton_self]
      simpa [Tasklets.set] using hold
    · rw [hsched u hut]
      have hcount : (s.mark hi t).scheduled.count u = s.scheduled.count u := by
        simp [Tasklets.mark, List.count_append, Ne.symm hut]
      rw [hcount]
      exact hp.once u

/-- The action at work takes a tasklet from its list. -/
theorem TaskletsAt.take {l : Option Nat} (hp : TaskletsAt s none q h place)
    (hlist : s.list = some (hi, some t)) (hl : s.next t = l) :
    s.kind t = hi ∧ ∃ h', TaskletsAt { s with list := some (hi, l) } (some t) q h'
      (Function.update place t none) := by
  have hhand := hp.hand
  rw [hlist] at hhand
  cases h with
  | nil => cases hhand
  | cons u h' =>
      obtain ⟨heq, hrest⟩ := hhand
      obtain rfl := Option.some.inj heq
      have hnodup := Chain.nodup hp.hand
      have hplace : place t = some .hand := (hp.mem_hand t).1 (List.mem_cons_self ..)
      obtain ⟨l', hl'⟩ := hp.kind_hand t hplace
      have hkind : s.kind t = hi := by
        rw [hlist] at hl'
        exact (Prod.mk.inj (Option.some.inj hl')).1.symm
      refine ⟨hkind, h', fun hi' => hp.queue hi', hl ▸ hrest, fun hi' u => ?_, fun u => ?_,
        fun u hu => ?_, fun u => ?_, fun u hi' hu => ?_, fun u hu => ?_, hp.once⟩
      · rw [hp.mem_queue]
        by_cases hut : u = t
        · subst hut
          simp [hplace]
        · rw [Function.update_of_ne hut]
      · by_cases hut : u = t
        · subst hut
          rw [Function.update_self]
          exact iff_of_false (List.nodup_cons.1 hnodup).1 (by simp)
        · rw [Function.update_of_ne hut, ← hp.mem_hand, List.mem_cons]
          simp [hut]
      · rw [← Option.some.inj hu, Function.update_self]
      · show (s.tasklets u).sched = true ↔ _
        rw [hp.sched]
        by_cases hut : u = t
        · subst hut
          simp [hplace]
        · rw [Function.update_of_ne hut]
          simp [Ne.symm hut]
      · by_cases hut : u = t
        · subst hut
          rw [Function.update_self] at hu
          cases hu
        · rw [Function.update_of_ne hut] at hu
          exact hp.kind_queue u hi' hu
      · by_cases hut : u = t
        · subst hut
          rw [Function.update_self] at hu
          cases hu
        · rw [Function.update_of_ne hut] at hu
          obtain ⟨l'', hl''⟩ := hp.kind_hand u hu
          rw [hlist] at hl''
          exact ⟨l, by rw [(Prod.mk.inj (Option.some.inj hl'')).1]⟩

/-- Its function is called, and it is scheduled no longer. -/
theorem TaskletsAt.call (hp : TaskletsAt s (some t) q h place) :
    TaskletsAt { s.set t { s.tasklets t with sched := false, run := true } with
      running := some t, calls := s.calls ++ [t] } none q h place := by
  have hplace := hp.loose_place t rfl
  have hnext : (s.set t { s.tasklets t with sched := false, run := true }).next = s.next :=
    set_next_eq rfl
  have hsched : ∀ u, u ≠ t →
      ((s.set t { s.tasklets t with sched := false, run := true }).tasklets u).sched =
        (s.tasklets u).sched := by
    intro u hu
    simp [Tasklets.set, Function.update_of_ne hu]
  have hself :
      ((s.set t { s.tasklets t with sched := false, run := true }).tasklets t).sched = false := by
    simp [Tasklets.set]
  refine ⟨fun hi' => ?_, ?_, hp.mem_queue, hp.mem_hand, fun u hu => ?_, fun u => ?_, hp.kind_queue,
    hp.kind_hand, fun u => ?_⟩
  · show Queue (s.set t _).next _ _ _
    rw [hnext]
    exact hp.queue hi'
  · show Chain (s.set t _).next _ _
    rw [hnext]
    exact hp.hand
  · cases hu
  · show ((s.set t _).tasklets u).sched = true ↔ _
    by_cases hut : u = t
    · subst hut
      simp [hself, hplace]
    · rw [hsched u hut, hp.sched]
      simp [Ne.symm hut]
  · show s.scheduled.count u = (s.calls ++ [t]).count u + if ((s.set t _).tasklets u).sched then 1 else 0
    have hold := hp.once u
    by_cases hut : u = t
    · subst hut
      rw [(hp.sched u).2 (.inr rfl)] at hold
      rw [hself, List.count_append, List.count_singleton_self]
      simpa using hold
    · rw [hsched u hut, List.count_append]
      simpa [Ne.symm hut] using hold

/-- An action takes a whole list. -/
theorem TaskletsAt.action (hp : TaskletsAt s none q h place) (hlist : s.list = none) (hi : Bool) :
    ∃ q' h' place', TaskletsAt (taskletAction s hi) none q' h' place' := by
  have hempty : h = [] := by
    have hhand := hp.hand
    rw [hlist] at hhand
    cases h with
    | nil => rfl
    | cons t h => cases hhand.1
  subst hempty
  have hnot : ∀ t, place t ≠ some .hand := fun t ht => absurd ((hp.mem_hand t).2 ht) (by simp)
  refine ⟨Function.update q hi [], q hi,
    fun t => if place t = some (.queue hi) then some .hand else place t, ?_⟩
  rw [taskletAction, hlist]
  refine ⟨fun hi' => ?_, (hp.queue hi).chain, fun hi' t => ?_, fun t => ?_, fun t ht => absurd ht (by simp),
    fun t => ?_, fun t hi' ht => ?_, fun t ht => ?_, hp.once⟩
  · show Queue s.next (Function.update s.vecs hi _ hi').head (Function.update s.vecs hi _ hi').tail _
    by_cases heq : hi' = hi
    · subst heq
      rw [Function.update_self, Function.update_self]
      exact Queue.empty
    · rw [Function.update_of_ne heq, Function.update_of_ne heq]
      exact hp.queue hi'
  · by_cases heq : hi' = hi
    · subst heq
      rw [Function.update_self]
      refine iff_of_false (by simp) ?_
      split
      · simp
      · assumption
    · rw [Function.update_of_ne heq, hp.mem_queue]
      split
      case isTrue ht => simp [ht, Ne.symm heq]
      case isFalse => rfl
  · rw [hp.mem_queue]
    split
    case isTrue ht => simp [ht]
    case isFalse ht => simp [ht, hnot t]
  · show (s.tasklets t).sched = true ↔ _
    rw [hp.sched]
    split
    case isTrue ht => simp [ht]
    case isFalse => rfl
  · split at ht
    · cases ht
    · exact hp.kind_queue t hi' ht
  · split at ht
    case isTrue hq =>
        refine ⟨(s.vecs hi).head, ?_⟩
        show some (hi, (s.vecs hi).head) = some (s.kind t, (s.vecs hi).head)
        rw [hp.kind_queue t hi hq]
    case isFalse => exact absurd ht (hnot t)

/-- Only what the places speak of matters. -/
theorem TaskletsAt.of_same {s' : Tasklets} (hp : TaskletsAt s none q h place)
    (hnext : s'.next = s.next) (hsched : ∀ u, (s'.tasklets u).sched = (s.tasklets u).sched)
    (hvecs : s'.vecs = s.vecs) (hlist : s'.list = s.list) (hkind : s'.kind = s.kind)
    (hscheduled : s'.scheduled = s.scheduled) (hcalls : s'.calls = s.calls) :
    TaskletsAt s' none q h place := by
  refine ⟨?_, ?_, hp.mem_queue, hp.mem_hand, hp.loose_place, fun t => ?_, ?_, ?_, fun t => ?_⟩
  · rw [hnext, hvecs]
    exact hp.queue
  · rw [hnext, hlist]
    exact hp.hand
  · rw [hsched]
    exact hp.sched t
  · rw [hkind]
    exact hp.kind_queue
  · rw [hlist, hkind]
    exact hp.kind_hand
  · rw [hscheduled, hcalls, hsched]
    exact hp.once t

end Moves

/-! ## Steps and runs -/

/-- Every tasklet has its place. -/
def Tasklets.Placed (s : Tasklets) : Prop := ∃ q h place, TaskletsAt s none q h place

section Steps

variable {s s' : Tasklets} {t : Nat}

theorem set_sched {v : Tasklet} (hv : v.sched = (s.tasklets t).sched) (u : Nat) :
    ((s.set t v).tasklets u).sched = (s.tasklets u).sched := by
  by_cases hu : u = t
  · subst hu
    simp [Tasklets.set, hv]
  · simp [Tasklets.set, Function.update_of_ne hu]

theorem Tasklets.Placed.turn (h : s.Placed) (hrun : taskletTurn s = .ok s') : s'.Placed := by
  obtain ⟨q, h, place, hp⟩ := h
  rw [taskletTurn] at hrun
  split at hrun
  case h_1 _ hi hr hlist =>
      obtain rfl := Except.ok.inj hrun
      have hempty : h = [] := by
        have hhand := hp.hand
        rw [hlist] at hhand
        cases h with
        | nil => rfl
        | cons t h => cases hhand.1
      subst hempty
      refine ⟨q, [], place, hp.queue, rfl, hp.mem_queue, hp.mem_hand, hp.loose_place, hp.sched,
        hp.kind_queue, fun t ht => ?_, hp.once⟩
      exact absurd ((hp.mem_hand t).2 ht) (by simp)
  case h_2 _ hi t hr hlist =>
      obtain ⟨hkind, h', hp'⟩ := hp.take hlist rfl
      dsimp only at hrun
      split at hrun
      · split at hrun
        · obtain rfl := Except.ok.inj hrun
          exact ⟨_, _, _, hp'.call⟩
        · cases hrun
      · obtain rfl := Except.ok.inj hrun
        exact ⟨_, _, _, hp'.append hkind⟩
  case h_3 =>
      obtain rfl := Except.ok.inj hrun
      exact ⟨q, h, place, hp⟩

theorem Tasklets.Placed.step {c : TaskletStep} (h : s.Placed) (hrun : taskletStep s c = .ok s')
    (hsafe : c.Safe s) : s'.Placed := by
  obtain ⟨q, l, place, hp⟩ := h
  cases c with
  | schedule hi t =>
      obtain rfl := Except.ok.inj hrun
      rw [taskletSchedule]
      split
      case isTrue => exact ⟨q, l, place, hp⟩
      case isFalse ht =>
          have hkind : (s.mark hi t).kind t = hi := Function.update_self ..
          exact ⟨_, _, _, (hp.mark (by simpa using ht)).append hkind⟩
  | scheduleFirst t =>
      obtain rfl := Except.ok.inj hrun
      rw [taskletHiScheduleFirst]
      split
      case isTrue => exact ⟨q, l, place, hp⟩
      case isFalse ht =>
          have hkind : (s.mark true t).kind t = true := Function.update_self ..
          exact ⟨_, _, _, (hp.mark (by simpa using ht)).pushFirst hkind (hsafe.resolve_left ht)⟩
  | disable t =>
      obtain rfl := Except.ok.inj hrun
      exact ⟨q, l, place, hp.of_same (set_next_eq rfl) (set_sched rfl) rfl rfl rfl rfl rfl⟩
  | enable t =>
      obtain rfl := Except.ok.inj hrun
      exact ⟨q, l, place, hp.of_same (set_next_eq rfl) (set_sched rfl) rfl rfl rfl rfl rfl⟩
  | action hi =>
      obtain rfl := Except.ok.inj hrun
      cases hlist : s.list with
      | none => exact hp.action hlist hi
      | some w =>
          rw [taskletAction, hlist]
          exact ⟨q, l, place, hp⟩
  | turn => exact Tasklets.Placed.turn ⟨q, l, place, hp⟩ hrun
  | leave =>
      obtain rfl := Except.ok.inj hrun
      rw [taskletReturn]
      split
      · exact ⟨q, l, place, hp⟩
      · exact ⟨q, l, place, hp.of_same (set_next_eq rfl) (set_sched rfl) rfl rfl rfl rfl rfl⟩

/-- A tasklet put in front of the empty list leaves the tail at `&head`. -/
theorem Tasklets.Placed.safe_of_good {c : TaskletStep} (h : s.Placed)
    (hrun : taskletStep s c = .ok s') (hgood : s'.Good) : c.Safe s := by
  cases c with
  | scheduleFirst t =>
      by_contra hunsafe
      simp only [TaskletStep.Safe, not_or, not_not] at hunsafe
      obtain ⟨hsched, hhead⟩ := hunsafe
      obtain ⟨q, l, place, hp⟩ := h
      have hqueue := hp.queue true
      have htail : (s.vecs true).tail = none := by
        rw [hqueue.tail_eq]
        generalize q true = ids at hqueue
        cases ids with
        | nil => rfl
        | cons i ids =>
            have hchain := hqueue.chain
            rw [hhead] at hchain
            cases hchain.1
      obtain rfl := Except.ok.inj hrun
      obtain ⟨q', hq'⟩ := hgood.ends true
      have heq : (taskletHiScheduleFirst s t).vecs true = { head := some t, tail := none } := by
        rw [taskletHiScheduleFirst, if_neg hsched]
        show Function.update s.vecs true _ true = _
        rw [Function.update_self]
        exact congrArg (TaskletHead.mk _) htail
      rw [heq] at hq'
      obtain rfl : q' = [] := List.getLast?_eq_none_iff.1 hq'.tail_eq.symm
      cases hq'.chain
  | _ => trivial

end Steps

/-- In every state of a run the lists are in order and no tasklet is lost or run twice, exactly when
    `__tasklet_hi_schedule_first` never meets an empty list. -/
theorem tasklets_good_iff (s : Tasklets) (steps : List TaskletStep) (h : s.Placed) :
    (∀ pre, pre <+: steps → ∀ s', taskletSteps s pre = .ok s' → s'.Good) ↔
      Run.AllSafe taskletStep (fun s c => c.Safe s) s steps := by
  refine Run.good_iff_allSafe (fun s h => ?_) (fun c s s' h hrun hsafe => h.step hrun hsafe)
    (fun c s s' h hrun hgood => h.safe_of_good hrun hgood) h
  obtain ⟨q, l, place, hp⟩ := h
  exact hp.good

/-- Both lists empty, as `softirq_init` leaves them; no tasklet was ever scheduled. -/
def freshTasklets : Tasklets where
  tasklets _ := { next := none, sched := false, run := false, count := 0 }
  vecs _ := { head := none, tail := none }
  list := none
  running := none
  kind _ := false
  scheduled := []
  calls := []

theorem freshTasklets_placed : freshTasklets.Placed := by
  refine ⟨fun _ => [], [], fun _ => none, fun _ => Queue.empty, rfl, ?_, ?_, ?_, ?_, ?_, ?_, ?_⟩
  all_goals simp [freshTasklets]

/-- A tasklet is put in front of a disabled one, which is then put back. -/
theorem tasklets_good_requeue : ∃ s', taskletSteps freshTasklets [.disable 1, .schedule true 1,
    .scheduleFirst 2, .action true, .turn, .schedule false 3, .leave, .turn] = .ok s' ∧ s'.Good := by
  have hall := (tasklets_good_iff freshTasklets [.disable 1, .schedule true 1, .scheduleFirst 2,
    .action true, .turn, .schedule false 3, .leave, .turn] freshTasklets_placed).2
  refine ⟨_, rfl, hall (fun s₁ h₁ => ?_) _ List.prefix_rfl _ rfl⟩
  obtain rfl := Except.ok.inj h₁
  refine ⟨trivial, fun s₂ h₂ => ?_⟩
  obtain rfl := Except.ok.inj h₂
  refine ⟨trivial, fun s₃ h₃ => ⟨.inr (by decide), fun s₄ h₄ => ⟨trivial, fun s₅ h₅ => ?_⟩⟩⟩
  exact ⟨trivial, fun s₆ _ => ⟨trivial, fun s₇ _ => ⟨trivial, fun s₈ _ => ⟨trivial, trivial⟩⟩⟩⟩

/-- A tasklet put first into the empty list is lost when the next one is put at its end. -/
theorem tasklets_lost_first :
    ∃ s, taskletSteps freshTasklets [.scheduleFirst 1, .schedule true 2] = .ok s ∧ ¬ s.Good := by
  refine ⟨_, rfl, fun hgood => ?_⟩
  rcases hgood.reach 1 rfl with hv | ⟨l, hl, -⟩
  · rcases hv with _ | hv
    cases hv
  · cases hl

end Yaos
