import Mathlib.Data.List.TakeWhile
import Yaos.Timer

set_option autoImplicit false

/-! # The order of timers and the places of their nodes

Every node is in one place: free, pending, in the array of the softirq, with a running callback, or on
a poll list. The pending list is sorted, so the expired timers are at its front. -/

namespace Yaos

open Chains

/-- The lists that nodes are on. -/
inductive TimerList
  | free
  | pending
  | poll (t : Nat)
  | drain (t : Nat)
deriving DecidableEq

/-- Where the list begins. -/
def Timers.heads (s : Timers) : TimerList → Option Nat
  | .free => s.pfree
  | .pending => s.ptimer
  | .poll t => s.polls t
  | .drain t => s.drains t

/-- Pending or about to be dispatched. -/
def Timers.Armed (s : Timers) (place : Nat → Option TimerList) (p : Nat) : Prop :=
  place p = some .pending ∨ p ∈ s.batch

/-- What holds of an armed node. -/
structure ArmedCb (s : Timers) (cb : TimeoutCb) : Prop where
  count : cb.count = 1
  deadline : ∃ d, s.accepted[cb.param]? = some d ∧ cb.deadline = d % 2 ^ 64
  param_new : cb.param ∉ s.log.map Dispatch.param
  handle : cb.thread ≠ 0 → cb.handle = .timeoutPoll

/-- The lists hold the nodes that are in no hand. `loose` is a node between two places. -/
structure TimersAt (s : Timers) (loose : Option Nat) (lists : TimerList → List Nat)
    (place : Nat → Option TimerList) : Prop where
  family : Family s.pnext s.heads lists place
  batch : s.batch.Nodup
  calling : s.calling.Nodup
  batch_calling : ∀ p ∈ s.batch, p ∉ s.calling
  batch_place : ∀ p ∈ s.batch, place p = none
  calling_place : ∀ p ∈ s.calling, place p = none
  loose_free : ∀ p, loose = some p → place p = none ∧ p ∉ s.batch ∧ p ∉ s.calling
  nodes : ∀ p, p < s.nodes ↔ place p ≠ none ∨ p ∈ s.batch ∨ p ∈ s.calling ∨ loose = some p
  sorted : (lists .pending).Pairwise fun p q => s.deadline p ≤ s.deadline q
  armed : ∀ p, s.Armed place p → ArmedCb s (s.cbs p)
  inj : ∀ p q, s.Armed place p → s.Armed place q → (s.cbs p).param = (s.cbs q).param → p = q
  kept : ∀ i < s.accepted.length, i ∈ s.log.map Dispatch.param ∨
    ∃ p, s.Armed place p ∧ (s.cbs p).param = i
  polled : ∀ p t, place p = some (.poll t) ∨ place p = some (.drain t) →
    (s.cbs p).handle = .timeoutPoll
  due : ∀ p ∈ s.batch, s.deadline p ≤ s.uptime
  log_nodup : (s.log.map Dispatch.param).Nodup
  log_due : ∀ e ∈ s.log, ∃ d, s.accepted[e.param]? = some d ∧ d % 2 ^ 64 ≤ e.uptime

/-! ## Writes to nodes -/

section Fields

variable (s : Timers) (p q : Nat) (link : Option Nat)

theorem Timers.set_of_ne {s : Timers} {p q : Nat} (h : q ≠ p) (cb : TimeoutCb) :
    (s.set p cb).cbs q = s.cbs q := Function.update_of_ne h ..

theorem Timers.set_self (cb : TimeoutCb) : (s.set p cb).cbs p = cb := Function.update_self ..

theorem Timers.set_pnext_eq (cb : TimeoutCb) :
    (s.set p cb).pnext = Function.update s.pnext p cb.pnext := by
  funext q
  by_cases hq : q = p
  · subst hq
    simp [Timers.pnext, Timers.set]
  · simp [Timers.pnext, Timers.set, Function.update_of_ne hq]

theorem Timers.setNext_pnext_eq : (s.setNext p link).pnext = Function.update s.pnext p link :=
  s.set_pnext_eq p _

/-- A link is the only thing `setNext` changes. -/
theorem Timers.setNext_cbs : ∃ l, (s.setNext p link).cbs q = { s.cbs q with pnext := l } := by
  by_cases hq : q = p
  · subst hq
    exact ⟨link, Function.update_self ..⟩
  · exact ⟨(s.cbs q).pnext, Function.update_of_ne hq ..⟩

/-- The number of an armed node is that of an accepted call. -/
theorem ArmedCb.param_lt {s : Timers} {cb : TimeoutCb} (h : ArmedCb s cb) :
    cb.param < s.accepted.length := by
  obtain ⟨d, hd, -⟩ := h.deadline
  exact (List.getElem?_eq_some_iff.1 hd).1

end Fields

theorem heads_pfree (s : Timers) (head : Option Nat) :
    ({ s with pfree := head } : Timers).heads = Function.update s.heads .free head := by
  funext k
  cases k <;> rfl

theorem heads_ptimer (s : Timers) (head : Option Nat) :
    ({ s with ptimer := head } : Timers).heads = Function.update s.heads .pending head := by
  funext k
  cases k <;> rfl

theorem heads_polls (s : Timers) (t : Nat) (head : Option Nat) :
    ({ s with polls := Function.update s.polls t head } : Timers).heads =
      Function.update s.heads (.poll t) head := by
  funext k
  cases k with
  | poll u =>
      by_cases hu : u = t
      · subst hu
        simp [Timers.heads]
      · simp [Timers.heads, hu]
  | _ => rfl

theorem heads_drains (s : Timers) (t : Nat) (head : Option Nat) :
    ({ s with drains := Function.update s.drains t head } : Timers).heads =
      Function.update s.heads (.drain t) head := by
  funext k
  cases k with
  | drain u =>
      by_cases hu : u = t
      · subst hu
        simp [Timers.heads]
      · simp [Timers.heads, hu]
  | _ => rfl

/-! ## Setting a timer -/

section Moves

variable {s s' : Timers} {lists : TimerList → List Nat} {place : Nat → Option TimerList} {p : Nat}

/-- Where only links have changed, a node is still armed as it was. -/
theorem TimersAt.deadline_eq (hcbs : ∀ q, ∃ l, s'.cbs q = { s.cbs q with pnext := l }) (q : Nat) :
    s'.deadline q = s.deadline q := by
  obtain ⟨l, hl⟩ := hcbs q
  rw [Timers.deadline, hl, Timers.deadline]

theorem nodeFrom_same {read : Option Nat} {mem : Bool} (h : s.nodeFrom read mem = some (p, s')) :
    s'.now = s.now ∧ s'.accepted = s.accepted ∧ s'.log = s.log ∧ s'.ptimer = s.ptimer ∧
      s'.event = s.event ∧ s'.cbs = s.cbs ∧ s'.batch = s.batch := by
  unfold Timers.nodeFrom at h
  split at h
  · obtain ⟨-, rfl⟩ := Prod.mk.inj (Option.some.inj h)
    exact ⟨rfl, rfl, rfl, rfl, rfl, rfl, rfl⟩
  · split at h
    · obtain ⟨-, rfl⟩ := Prod.mk.inj (Option.some.inj h)
      exact ⟨rfl, rfl, rfl, rfl, rfl, rfl, rfl⟩
    · cases h

/-- `s` with other heads. -/
structure SameTimers (s s' : Timers) : Prop where
  batch : s'.batch = s.batch
  calling : s'.calling = s.calling
  uptime : s'.uptime = s.uptime
  nodes : s'.nodes = s.nodes
  accepted : s'.accepted = s.accepted
  log : s'.log = s.log

theorem TimersAt.exists_head {k : TimerList} {loose : Option Nat} (h : TimersAt s loose lists place)
    (hhead : s.heads k = some p) : ∃ rest, lists k = p :: rest := by
  have hchain := h.family.chain k
  rw [hhead] at hchain
  cases hl : lists k with
  | nil =>
      rw [hl] at hchain
      cases hchain
  | cons q rest =>
      rw [hl] at hchain
      obtain rfl := Option.some.inj hchain.1
      exact ⟨rest, rfl⟩

/-- A node that is to be called is on no list, whatever becomes of the list of another one. -/
theorem TimersAt.batch_off {loose : Option Nat} {k : Option TimerList}
    (h : TimersAt s loose lists place) (hp : p ∉ s.batch) {r : Nat} (hr : r ∈ s.batch) :
    Function.update place p k r = none := by
  have hrp : r ≠ p := fun heq => hp (heq ▸ hr)
  rw [Function.update_of_ne hrp]
  exact h.batch_place r hr

theorem TimersAt.calling_off {loose : Option Nat} {k : Option TimerList}
    (h : TimersAt s loose lists place) (hp : p ∉ s.calling) {r : Nat} (hr : r ∈ s.calling) :
    Function.update place p k r = none := by
  have hrp : r ≠ p := fun heq => hp (heq ▸ hr)
  rw [Function.update_of_ne hrp]
  exact h.calling_place r hr

/-- Where armed nodes stay armed, no accepted timer is lost. -/
theorem TimersAt.kept_of {loose : Option Nat} {place' : Nat → Option TimerList}
    (h : TimersAt s loose lists place) (hacc : s'.accepted = s.accepted) (hlog : s'.log = s.log)
    (hstay : ∀ q, s.Armed place q → s'.Armed place' q ∧ (s'.cbs q).param = (s.cbs q).param) :
    ∀ i < s'.accepted.length, i ∈ s'.log.map Dispatch.param ∨
      ∃ q, s'.Armed place' q ∧ (s'.cbs q).param = i := by
  intro i hi
  rw [hacc] at hi
  rw [hlog]
  refine (h.kept i hi).imp_right ?_
  rintro ⟨q, hq, rfl⟩
  exact ⟨q, hstay q hq⟩

/-- The first node of a list other than the pending one is taken off it. -/
theorem TimersAt.pop {k : TimerList} {rest : List Nat} (h : TimersAt s none lists place)
    (hk : k ≠ .pending) (hlist : lists k = p :: rest) (hcbs : s'.cbs = s.cbs)
    (hheads : s'.heads = Function.update s.heads k (s.pnext p)) (hsame : SameTimers s s') :
    TimersAt s' (some p) (Function.update lists k rest) (Function.update place p none) := by
  have hpnext : s'.pnext = s.pnext := by
    funext q
    rw [Timers.pnext, hcbs, Timers.pnext]
  obtain ⟨-, hfamily⟩ := h.family.pop hlist
  have hplace : place p = some k := (h.family.mem k p).1 (by simp [hlist])
  have hkeep : ∀ r, r ≠ p → Function.update place p none r = place r := fun r hr =>
    Function.update_of_ne hr ..
  have hbatch : p ∉ s.batch := fun hmem => by
    rw [h.batch_place p hmem] at hplace
    cases hplace
  have hcalling : p ∉ s.calling := fun hmem => by
    rw [h.calling_place p hmem] at hplace
    cases hplace
  -- a node is armed while it is pending or in the batch, and the loose node is neither
  have harmed : ∀ r, s'.Armed (Function.update place p none) r → s.Armed place r := by
    rintro r (hr | hr)
    · by_cases hrp : r = p
      · rw [hrp, Function.update_self] at hr
        cases hr
      · rw [hkeep r hrp] at hr
        exact .inl hr
    · exact .inr (hsame.batch ▸ hr)
  constructor
  case family =>
      rw [hpnext, hheads]
      exact hfamily
  case batch => exact hsame.batch ▸ h.batch
  case calling => exact hsame.calling ▸ h.calling
  case batch_calling =>
      rw [hsame.batch, hsame.calling]
      exact h.batch_calling
  case batch_place => exact fun r hr => h.batch_off hbatch (hsame.batch ▸ hr)
  case calling_place => exact fun r hr => h.calling_off hcalling (hsame.calling ▸ hr)
  case loose_free =>
      intro r hr
      obtain rfl := Option.some.inj hr
      rw [hsame.batch, hsame.calling]
      exact ⟨Function.update_self .., hbatch, hcalling⟩
  case nodes =>
      intro r
      rw [hsame.nodes, hsame.batch, hsame.calling, h.nodes]
      by_cases hrp : r = p
      · subst hrp
        simp [hplace]
      · rw [hkeep r hrp]
        simp [Ne.symm hrp]
  case sorted =>
      rw [Function.update_of_ne (Ne.symm hk)]
      refine h.sorted.imp fun {r r'} hle => ?_
      rw [Timers.deadline, Timers.deadline, hcbs]
      exact hle
  case armed =>
      intro r hr
      have hcb := h.armed r (harmed r hr)
      rw [hcbs]
      exact ⟨hcb.count, hsame.accepted ▸ hcb.deadline, hsame.log ▸ hcb.param_new, hcb.handle⟩
  case inj =>
      intro r r' hr hr'
      rw [hcbs]
      exact h.inj r r' (harmed r hr) (harmed r' hr')
  case kept =>
      refine h.kept_of hsame.accepted hsame.log ?_
      rintro r (hr | hr)
      · have hrp : r ≠ p := by
          rintro rfl
          exact hk (Option.some.inj (hplace.symm.trans hr))
        exact ⟨.inl ((hkeep r hrp).trans hr), by rw [hcbs]⟩
      · exact ⟨.inr (hsame.batch ▸ hr), by rw [hcbs]⟩
  case polled =>
      intro r t hr
      rw [hcbs]
      refine h.polled r t ?_
      by_cases hrp : r = p
      · rw [hrp, Function.update_self] at hr
        rcases hr with hr | hr <;> cases hr
      · rwa [hkeep r hrp] at hr
  case due =>
      intro r hr
      rw [Timers.deadline, hcbs, hsame.uptime]
      exact h.due r (hsame.batch ▸ hr)
  case log_nodup => exact hsame.log ▸ h.log_nodup
  case log_due =>
      rw [hsame.log, hsame.accepted]
      exact h.log_due

/-- A call gets a node of its own, if nobody has changed `pfree` since it was read. -/
theorem TimersAt.nodeFrom {read : Option Nat} {mem : Bool} (h : TimersAt s none lists place)
    (hread : read = none ∨ read = s.pfree) (hrun : s.nodeFrom read mem = some (p, s')) :
    ∃ lists' place', TimersAt s' (some p) lists' place' := by
  unfold Timers.nodeFrom at hrun
  split at hrun
  case h_1 q =>
      obtain ⟨rfl, rfl⟩ := Prod.mk.inj (Option.some.inj hrun)
      have hfree : s.pfree = some q := (hread.resolve_left (by simp)).symm
      obtain ⟨rest, hlist⟩ := h.exists_head (k := .free) hfree
      exact ⟨_, _, h.pop (by simp) hlist rfl (heads_pfree s _) ⟨rfl, rfl, rfl, rfl, rfl, rfl⟩⟩
  case h_2 =>
      split at hrun
      case isFalse => cases hrun
      case isTrue =>
          obtain ⟨rfl, rfl⟩ := Prod.mk.inj (Option.some.inj hrun)
          have hnew : ¬ (place s.nodes ≠ none ∨ s.nodes ∈ s.batch ∨ s.nodes ∈ s.calling ∨
              (none : Option Nat) = some s.nodes) := fun hold =>
            Nat.lt_irrefl _ ((h.nodes s.nodes).2 hold)
          simp only [not_or, not_not] at hnew
          refine ⟨lists, place, h.family, h.batch, h.calling, h.batch_calling, h.batch_place,
            h.calling_place, fun r hr => ?_, fun r => ?_, h.sorted, fun r hr => ?_, h.inj, h.kept,
            h.polled, h.due, h.log_nodup, h.log_due⟩
          · obtain rfl := Option.some.inj hr
            exact ⟨hnew.1, hnew.2.1, hnew.2.2.1⟩
          · show r < s.nodes + 1 ↔ _
            have hold := h.nodes r
            rw [Nat.lt_succ_iff_lt_or_eq, hold]
            simp [or_assoc, eq_comm]
          · have hcb := h.armed r hr
            exact ⟨hcb.count, hcb.deadline, hcb.param_new, hcb.handle⟩

/-- A node that is on no list and not to be called is written. -/
theorem TimersAt.write {loose : Option Nat} (h : TimersAt s loose lists place) (hplace : place p = none)
    (hbatch : p ∉ s.batch) (cb : TimeoutCb) : TimersAt (s.set p cb) loose lists place := by
  have hother : ∀ r, place r ≠ none ∨ r ∈ s.batch → r ≠ p := by
    rintro r hr rfl
    rcases hr with hr | hr
    · exact hr hplace
    · exact hbatch hr
  have hcbs : ∀ r, place r ≠ none ∨ r ∈ s.batch → (s.set p cb).cbs r = s.cbs r := fun r hr =>
    Function.update_of_ne (hother r hr) ..
  have harmed : ∀ r, s.Armed place r → place r ≠ none ∨ r ∈ s.batch := by
    rintro r (hr | hr)
    · exact .inl (by simp [hr])
    · exact .inr hr
  refine ⟨?_, h.batch, h.calling, h.batch_calling, h.batch_place, h.calling_place, h.loose_free,
    h.nodes, ?_, fun r hr => ?_, fun r r' hr hr' heq => ?_,
    h.kept_of rfl rfl fun r hr => ⟨hr, by rw [hcbs r (harmed r hr)]⟩, fun r t hr => ?_, fun r hr => ?_,
    h.log_nodup, h.log_due⟩
  · show Family (s.set p cb).pnext s.heads lists place
    rw [s.set_pnext_eq]
    exact h.family.write hplace _
  · refine h.sorted.imp_of_mem fun {r r'} hr hr' hle => ?_
    rw [h.family.mem] at hr hr'
    show ((Timers.set s p cb).cbs r).deadline ≤ ((Timers.set s p cb).cbs r').deadline
    rw [Timers.set_of_ne (hother r (.inl (by simp [hr]))),
      Timers.set_of_ne (hother r' (.inl (by simp [hr'])))]
    exact hle
  · rw [hcbs r (harmed r hr)]
    have hcb := h.armed r hr
    exact ⟨hcb.count, hcb.deadline, hcb.param_new, hcb.handle⟩
  · rw [hcbs r (harmed r hr), hcbs r' (harmed r' hr')] at heq
    exact h.inj r r' hr hr' heq
  · rw [hcbs r (.inl (by rcases hr with hr | hr <;> simp [hr]))]
    exact h.polled r t hr
  · rw [Timers.deadline, hcbs r (.inr hr)]
    exact h.due r hr

theorem TimersAt.fill (h : TimersAt s (some p) lists place) (cb : TimeoutCb) :
    TimersAt (s.set p cb) (some p) lists place := by
  obtain ⟨hplace, hbatch, -⟩ := h.loose_free p rfl
  exact h.write hplace hbatch cb

/-- What a call with the deadline `d` writes to its node. -/
structure NewCb (s : Timers) (cb : TimeoutCb) (d : Nat) : Prop where
  count : cb.count = 1
  deadline : cb.deadline = d % 2 ^ 64
  param : cb.param = s.accepted.length
  handle : cb.thread ≠ 0 → cb.handle = .timeoutPoll

/-- The loose node goes to the pending list, which becomes `l`, and its call is recorded. -/
theorem TimersAt.arm {l : List Nat} {d : Nat} (h : TimersAt s (some p) lists place)
    (hcb : NewCb s (s.cbs p) d)
    (hfamily : Family s'.pnext s'.heads (Function.update lists .pending l)
      (Function.update place p (some .pending)))
    (hsorted : l.Pairwise fun p q => s.deadline p ≤ s.deadline q)
    (hcbs : ∀ q, ∃ l, s'.cbs q = { s.cbs q with pnext := l }) (hbatch : s'.batch = s.batch)
    (hcalling : s'.calling = s.calling) (hnodes : s'.nodes = s.nodes)
    (hacc : s'.accepted = s.accepted ++ [d]) (hlog : s'.log = s.log) (huptime : s'.uptime = s.uptime) :
    TimersAt s' none (Function.update lists .pending l) (Function.update place p (some .pending)) := by
  obtain ⟨hplace, hpbatch, hpcalling⟩ := h.loose_free p rfl
  have hkeep : ∀ r, r ≠ p → Function.update place p (some .pending) r = place r := fun r hr =>
    Function.update_of_ne hr ..
  -- only links are written: the numbers, deadlines and threads of all nodes stay
  have hparam : ∀ r, (s'.cbs r).param = (s.cbs r).param := fun r => by
    obtain ⟨l, hl⟩ := hcbs r
    rw [hl]
  have harmed : ∀ r, s'.Armed (Function.update place p (some .pending)) r →
      r = p ∨ s.Armed place r := by
    rintro r (hr | hr)
    · by_cases hrp : r = p
      · exact .inl hrp
      · rw [hkeep r hrp] at hr
        exact .inr (.inl hr)
    · exact .inr (.inr (hbatch ▸ hr))
  have hstay : ∀ r, s.Armed place r → s'.Armed (Function.update place p (some .pending)) r := by
    rintro r (hr | hr)
    · by_cases hrp : r = p
      · exact .inl (hrp ▸ Function.update_self ..)
      · exact .inl ((hkeep r hrp).trans hr)
    · exact .inr (hbatch ▸ hr)
  have hold : ∀ {i d' : Nat}, s.accepted[i]? = some d' → s'.accepted[i]? = some d' := by
    intro i d' hi
    rw [hacc, List.getElem?_append_left (List.getElem?_eq_some_iff.1 hi).1]
    exact hi
  -- the number of the new timer is larger than that of any other
  have hother : ∀ r, s.Armed place r → (s.cbs r).param ≠ (s.cbs p).param := by
    intro r hr
    rw [hcb.param]
    exact Nat.ne_of_lt (h.armed r hr).param_lt
  refine ⟨hfamily, hbatch ▸ h.batch, hcalling ▸ h.calling, ?_,
    fun r hr => h.batch_off hpbatch (hbatch ▸ hr), fun r hr => h.calling_off hpcalling (hcalling ▸ hr),
    fun r hr => ?_, fun r => ?_, ?_, fun r hr => ?_, fun r r' hr hr' heq => ?_, fun i hi => ?_,
    fun r t hr => ?_, fun r hr => ?_, hlog ▸ h.log_nodup, fun e he => ?_⟩
  · rw [hbatch, hcalling]
    exact h.batch_calling
  · cases hr
  · rw [hnodes, h.nodes, hbatch, hcalling]
    by_cases hrp : r = p
    · subst hrp
      simp
    · rw [hkeep r hrp]
      simp [Ne.symm hrp]
  · rw [Function.update_self]
    simpa only [TimersAt.deadline_eq hcbs] using hsorted
  · obtain ⟨link, hlink⟩ := hcbs r
    rw [hlink]
    rcases harmed r hr with rfl | hr
    · refine ⟨hcb.count, ⟨d, ?_, hcb.deadline⟩, fun hmem => ?_, hcb.handle⟩
      · show s'.accepted[(s.cbs r).param]? = some d
        rw [hacc, hcb.param, List.getElem?_concat_length]
      · rw [hlog] at hmem
        obtain ⟨e, he, heq⟩ := List.mem_map.1 hmem
        obtain ⟨d', hd', -⟩ := h.log_due e he
        have hlt := (List.getElem?_eq_some_iff.1 hd').1
        rw [heq] at hlt
        exact absurd hcb.param (Nat.ne_of_lt hlt)
    · have hcb' := h.armed r hr
      obtain ⟨d', hd', heq⟩ := hcb'.deadline
      exact ⟨hcb'.count, ⟨d', hold hd', heq⟩, hlog ▸ hcb'.param_new, hcb'.handle⟩
  · rw [hparam, hparam] at heq
    rcases harmed r hr with hrp | hra
    · rcases harmed r' hr' with hrp' | hra'
      · rw [hrp, hrp']
      · rw [hrp] at heq
        exact absurd heq.symm (hother r' hra')
    · rcases harmed r' hr' with hrp' | hra'
      · rw [hrp'] at heq
        exact absurd heq (hother r hra)
      · exact h.inj r r' hra hra' heq
  · rw [hacc, List.length_append, List.length_singleton] at hi
    rw [hlog]
    rcases Nat.lt_succ_iff_lt_or_eq.1 hi with hi | rfl
    · refine (h.kept i hi).imp_right ?_
      rintro ⟨q, hq, rfl⟩
      exact ⟨q, hstay q hq, hparam q⟩
    · exact .inr ⟨p, .inl (Function.update_self ..), (hparam p).trans hcb.param⟩
  · obtain ⟨link, hlink⟩ := hcbs r
    rw [hlink]
    refine h.polled r t ?_
    by_cases hrp : r = p
    · rw [hrp, Function.update_self] at hr
      rcases hr with hr | hr <;> cases hr
    · rwa [hkeep r hrp] at hr
  · rw [TimersAt.deadline_eq hcbs, huptime]
    exact h.due r (hbatch ▸ hr)
  · rw [hlog] at he
    obtain ⟨d', hd', hle⟩ := h.log_due e he
    exact ⟨d', hold hd', hle⟩

/-- The state with the call that has set the timer recorded. -/
def Timers.accept (s : Timers) (d : Nat) : Timers := { s with accepted := s.accepted ++ [d] }

theorem TimersAt.addFront {nsec d : Nat} (h : TimersAt s (some p) lists place)
    (hcb : NewCb s (s.cbs p) d) (hfirst : ∀ q ∈ lists .pending, s.deadline p ≤ s.deadline q) :
    ∃ lists' place', TimersAt ((s.addFront nsec p).accept d) none lists' place' := by
  obtain ⟨hplace, -, -⟩ := h.loose_free p rfl
  have hfamily := h.family.push (k := .pending) hplace
  refine ⟨_, _, h.arm hcb ?_ (List.pairwise_cons.2 ⟨hfirst, h.sorted⟩)
    (s.setNext_cbs p · s.ptimer) rfl rfl rfl rfl rfl rfl⟩
  show Family (s.setNext p s.ptimer).pnext
    ({ s.setNext p s.ptimer with ptimer := some p } : Timers).heads _ _
  rw [heads_ptimer, s.setNext_pnext_eq]
  exact hfamily

/-- The nodes of the pending list are fewer than all nodes, so the loop of `add_timer` ends. -/
theorem TimersAt.length_lt (h : TimersAt s (some p) lists place) :
    (lists .pending).length < s.nodes := by
  have hplace := (h.loose_free p rfl).1
  have hnodup := (h.family.chain .pending).nodup
  have hnot : p ∉ lists .pending := by
    rw [h.family.mem, hplace]
    simp
  have hsub : p :: lists .pending ⊆ List.range s.nodes := by
    intro r hr
    rw [List.mem_range, h.nodes]
    rcases List.mem_cons.1 hr with rfl | hr
    · simp
    · rw [h.family.mem] at hr
      simp [hr]
  have hle := (List.subperm_of_subset (List.nodup_cons.2 ⟨hnot, hnodup⟩) hsub).length_le
  rw [List.length_cons, List.length_range] at hle
  exact hle

theorem le_of_mem_dropWhile {f : Nat → Nat} {ids : List Nat}
    (hsorted : ids.Pairwise fun p q => f p ≤ f q) :
    ∀ q ∈ ids.dropWhile (fun q => f q < f p), f p ≤ f q := by
  induction ids with
  | nil => simp
  | cons i ids ih =>
      obtain ⟨hi, hids⟩ := List.pairwise_cons.1 hsorted
      by_cases hlt : f i < f p
      · rw [List.dropWhile_cons_of_pos (by simpa using hlt)]
        exact ih hids
      · rw [List.dropWhile_cons_of_neg (by simpa using hlt)]
        intro q hq
        have hpi := Nat.le_of_not_lt hlt
        rcases List.mem_cons.1 hq with rfl | hq
        · exact hpi
        · exact Nat.le_trans hpi (hi q hq)

/-- Everything up to the place of the new timer is due no later than it, everything behind it no
    earlier. -/
theorem sorted_insert {f : Nat → Nat} {head : Nat} {ids pre : List Nat} {j : Nat}
    (hsorted : (head :: ids).Pairwise fun p q => f p ≤ f q) (hhead : f head ≤ f p)
    (htake : head :: ids.takeWhile (fun q => f q < f p) = pre ++ [j]) :
    (pre ++ j :: p :: ids.dropWhile (fun q => f q < f p)).Pairwise fun p q => f p ≤ f q := by
  have hmove : pre ++ j :: p :: ids.dropWhile (fun q => f q < f p) =
      (head :: ids.takeWhile (fun q => f q < f p)) ++ p :: ids.dropWhile (fun q => f q < f p) := by
    rw [htake]
    simp
  obtain ⟨-, hids⟩ := List.pairwise_cons.1 hsorted
  have hbehind := le_of_mem_dropWhile (p := p) hids
  have hbefore : ∀ q ∈ head :: ids.takeWhile (fun q => f q < f p), f q ≤ f p := by
    intro q hq
    rcases List.mem_cons.1 hq with rfl | hq
    · exact hhead
    · have hlt := List.mem_takeWhile_imp hq
      exact Nat.le_of_lt (by simpa using hlt)
  rw [hmove, List.pairwise_append]
  refine ⟨hsorted.sublist ((List.takeWhile_sublist _).cons_cons head), ?_, fun a ha b hb => ?_⟩
  · exact List.pairwise_cons.2 ⟨hbehind, hids.sublist (List.dropWhile_sublist _)⟩
  · rcases List.mem_cons.1 hb with rfl | hb
    · exact hbefore a ha
    · exact Nat.le_trans (hbefore a ha) (hbehind b hb)

theorem TimersAt.addTimer (nsec : Nat) {d : Nat} (h : TimersAt s (some p) lists place)
    (hcb : NewCb s (s.cbs p) d) :
    ∃ s', addTimer s nsec p = .ok s' ∧ s'.accepted = s.accepted ∧
      ∃ lists' place', TimersAt (s'.accept d) none lists' place' := by
  obtain ⟨hplace, -, -⟩ := h.loose_free p rfl
  have hchain := h.family.chain .pending
  rw [Yaos.addTimer]
  cases hhead : s.ptimer with
  | none =>
      have hempty : lists .pending = [] := by
        rw [show s.heads .pending = s.ptimer from rfl, hhead] at hchain
        cases hl : lists .pending with
        | nil => rfl
        | cons i ids =>
            rw [hl] at hchain
            cases hchain.1
      exact ⟨_, rfl, rfl, h.addFront hcb (by simp [hempty])⟩
  | some head =>
      obtain ⟨ids, hlist⟩ := h.exists_head (k := .pending) hhead
      have hsorted := h.sorted
      rw [hlist] at hsorted hchain
      dsimp only
      split
      case isTrue hlt =>
          refine ⟨_, rfl, rfl, h.addFront hcb fun q hq => ?_⟩
          rw [hlist] at hq
          rcases List.mem_cons.1 hq with rfl | hq
          · exact Nat.le_of_lt hlt
          · exact Nat.le_trans (Nat.le_of_lt hlt) ((List.pairwise_cons.1 hsorted).1 q hq)
      case isFalse hlt =>
          have hlength := h.length_lt
          rw [hlist, List.length_cons] at hlength
          obtain ⟨pre, ptr, hadvance, hsplit, htake⟩ := advance_split
            (fun q => decide (s.deadline q < s.deadline p)) hchain (Nat.lt_of_succ_lt hlength)
          rw [hadvance]
          have hfamily := h.family.insert (hlist.trans hsplit) hplace
          refine ⟨_, rfl, rfl, _, _, h.arm hcb ?_
            (sorted_insert hsorted (Nat.le_of_not_lt hlt) htake) (fun q => ?_)
            rfl rfl rfl rfl rfl rfl⟩
          · show Family ((s.setNext p (s.pnext ptr)).setNext ptr (some p)).pnext s.heads _ _
            rw [Timers.setNext_pnext_eq, Timers.setNext_pnext_eq]
            exact hfamily
          · obtain ⟨l, hl⟩ := (s.setNext p (s.pnext ptr)).setNext_cbs ptr q (some p)
            obtain ⟨l', hl'⟩ := s.setNext_cbs p q (s.pnext ptr)
            exact ⟨l, hl.trans (by rw [hl'])⟩

/-- A call of `set_timeout_nsec_cb` or `set_timeout_nsec_poll` that has read `pfree` returns `ENOMEM`
    exactly when there is no node for it. -/
theorem TimersAt.setFrom {read : Option Nat} (h : TimersAt s none lists place)
    (hread : read = none ∨ read = s.pfree) (nsec thread : Nat) (mem : Bool) :
    ∃ r s', setTimeoutFrom s read nsec thread s.accepted.length mem = .ok (r, s') ∧
      s'.accepted = s.accepted ∧
      ((read = none ∧ mem = false) ∧ r = ENOMEM ∧ s' = s ∨
        ¬ (read = none ∧ mem = false) ∧ r = OK ∧
          ∃ lists' place', TimersAt (s'.accept (nsec + s.now)) none lists' place') := by
  rw [setTimeoutFrom]
  cases hnode : s.nodeFrom read mem with
  | none =>
      unfold Timers.nodeFrom at hnode
      split at hnode
      · cases hnode
      · split at hnode
        · cases hnode
        case isFalse hmem => exact ⟨_, s, rfl, rfl, .inl ⟨⟨rfl, by simpa using hmem⟩, rfl, rfl⟩⟩
  | some w =>
      obtain ⟨p, s₁⟩ := w
      obtain ⟨lists₁, place₁, h₁⟩ := h.nodeFrom hread hnode
      obtain ⟨hnow, hacc, -⟩ := nodeFrom_same hnode
      have hnew : ∀ cb : TimeoutCb, NewCb s₁ cb (nsec + s.now) →
          NewCb (s₁.set p cb) ((s₁.set p cb).cbs p) (nsec + s.now) := fun cb hcb => by
        rw [Timers.set_self]
        exact ⟨hcb.count, hcb.deadline, hcb.param, hcb.handle⟩
      obtain ⟨s', hrun, hacc', hat⟩ := (h₁.fill _).addTimer nsec (hnew
        { pnext := s₁.pnext p, handle := if thread = 0 then .null else .timeoutPoll
          param := s.accepted.length, thread := thread, deadline := (nsec + s₁.now) % 2 ^ 64, count := 1 }
        ⟨rfl, by rw [hnow], congrArg List.length hacc.symm, fun hthread => if_neg hthread⟩)
      dsimp only
      rw [hrun]
      refine ⟨_, _, rfl, hacc'.trans hacc, .inr ⟨?_, rfl, hat⟩⟩
      rintro ⟨rfl, rfl⟩
      cases hnode

/-! ## The softirq -/

/-- The loop puts the expired timers behind `ptr` into the array, as long as there is room, and ends
    at the last of them. -/
theorem takeBatch_spec {ptr : Nat} {head : Option Nat} {ids : List Nat}
    (hchain : Chain s.pnext head (ptr :: ids)) (callnr : Nat) :
    ∃ rest last pre, takeBatch s callnr ptr = (rest, last) ∧
      rest = (ids.take callnr).takeWhile (fun q => s.deadline q ≤ s.now) ∧
      ptr :: rest = pre ++ [last] := by
  induction callnr generalizing ptr head ids with
  | zero => exact ⟨[], ptr, [], rfl, by simp, rfl⟩
  | succ callnr ih =>
      obtain ⟨-, hrest⟩ := hchain
      cases ids with
      | nil =>
          refine ⟨[], ptr, [], ?_, by simp, rfl⟩
          rw [takeBatch, show s.pnext ptr = none from hrest]
      | cons q ids =>
          rw [List.take_succ_cons]
          by_cases hdue : s.deadline q ≤ s.now
          · obtain ⟨rest, last, pre, hbatch, hwhile, hlast⟩ := ih hrest
            refine ⟨q :: rest, last, ptr :: pre, ?_, ?_, ?_⟩
            · rw [takeBatch, show s.pnext ptr = some q from hrest.1]
              dsimp only
              rw [if_pos hdue, hbatch]
            · rw [List.takeWhile_cons_of_pos (by simpa using hdue), hwhile]
            · rw [hlast]
              rfl
          · refine ⟨[], ptr, [], ?_, ?_, rfl⟩
            · rw [takeBatch, show s.pnext ptr = some q from hrest.1]
              dsimp only
              rw [if_neg hdue]
            · rw [List.takeWhile_cons_of_neg (by simpa using hdue)]

/-- On a sorted list the expired timers are in front. -/
theorem takeWhile_eq_take {f : Nat → Nat} {ids : List Nat}
    (hsorted : ids.Pairwise fun p q => f p ≤ f q) (now n : Nat) :
    (ids.take n).takeWhile (fun q => f q ≤ now) =
      ids.take (min n (ids.countP fun q => f q ≤ now)) := by
  induction ids generalizing n with
  | nil => simp
  | cons i ids ih =>
      obtain ⟨hi, hids⟩ := List.pairwise_cons.1 hsorted
      cases n with
      | zero => simp
      | succ n =>
          rw [List.take_succ_cons]
          by_cases hdue : f i ≤ now
          · rw [List.takeWhile_cons_of_pos (by simpa using hdue),
              List.countP_cons_of_pos (by simpa using hdue), Nat.add_min_add_right,
              List.take_succ_cons, ih hids]
          · have hnone : (i :: ids).countP (fun q => f q ≤ now) = 0 := by
              rw [List.countP_eq_zero]
              intro q hq
              rcases List.mem_cons.1 hq with rfl | hq
              · simpa using hdue
              · have hle := hi q hq
                simp only [decide_eq_true_eq]
                omega
            rw [List.takeWhile_cons_of_neg (by simpa using hdue), hnone, Nat.min_zero, List.take_zero]

/-- The timers that a softirq takes: the expired ones, but not more than twenty. -/
def Timers.batchSize (s : Timers) (l : List Nat) : Nat :=
  min 20 (l.countP fun q => s.deadline q ≤ s.now)

/-- Timers leave the pending list for the array. -/
theorem TimersAt.toBatch {pre post : List Nat} {last : Nat} {event : Option Nat}
    (h : TimersAt s none lists place) (hbatch : s.batch = [])
    (hlist : lists .pending = pre ++ last :: post)
    (hdue : ∀ q ∈ pre ++ [last], s.deadline q ≤ s.now) :
    TimersAt { s with ptimer := s.pnext last, batch := pre ++ [last], uptime := s.now, event := event }
      none (Function.update lists .pending post)
      (fun q => if q ∈ pre ++ [last] then none else place q) := by
  have hfamily := h.family.drop hlist
  have hmem : ∀ q, q ∈ pre ++ [last] → place q = some .pending := by
    intro q hq
    rw [← h.family.mem, hlist]
    rcases List.mem_append.1 hq with hq | hq
    · exact List.mem_append_left _ hq
    · rw [List.mem_singleton.1 hq]
      simp
  have hnodup := (h.family.chain .pending).nodup
  rw [hlist] at hnodup
  -- the list is cut behind `last`, the last node that is due
  have hmove : pre ++ last :: post = pre ++ [last] ++ post := by simp
  have harmed : ∀ q, Timers.Armed { s with ptimer := s.pnext last, batch := pre ++ [last]
                                           uptime := s.now, event := event }
      (fun q => if q ∈ pre ++ [last] then none else place q) q → s.Armed place q := by
    rintro q (hq | hq)
    · dsimp only at hq
      split at hq
      · cases hq
      · exact .inl hq
    · exact .inl (hmem q hq)
  have hcalling : ∀ q ∈ pre ++ [last], q ∉ s.calling := by
    intro q hq hc
    have hplace := h.calling_place q hc
    rw [hmem q hq] at hplace
    cases hplace
  refine ⟨?_, ?_, h.calling, hcalling, fun q hq => if_pos hq, fun q hq => ?_, fun q hq => ?_,
    fun q => ?_, ?_, fun q hq => ?_, fun q r hq hr => h.inj q r (harmed q hq) (harmed r hr),
    h.kept_of rfl rfl fun q hq => ⟨?_, rfl⟩, fun q t hq => ?_, fun q hq => ?_, h.log_nodup, h.log_due⟩
  · show Family s.pnext ({ s with ptimer := s.pnext last } : Timers).heads _ _
    rw [heads_ptimer]
    exact hfamily
  · rw [hmove] at hnodup
    exact (List.nodup_append.1 hnodup).1
  · rw [h.calling_place q hq]
    simp
  · cases hq
  · show q < s.nodes ↔ _
    rw [h.nodes, hbatch]
    by_cases hq : q ∈ pre ++ [last]
    · rw [if_pos hq]
      simp only [hmem q hq, hq]
      simp
    · rw [if_neg hq]
      simp [hq]
  · rw [Function.update_self]
    have hsorted := h.sorted
    rw [hlist, hmove] at hsorted
    exact (List.pairwise_append.1 hsorted).2.1
  · have hcb := h.armed q (harmed q hq)
    exact ⟨hcb.count, hcb.deadline, hcb.param_new, hcb.handle⟩
  · rcases hq with hq | hq
    · by_cases hmem' : q ∈ pre ++ [last]
      · exact .inr hmem'
      · exact .inl ((if_neg hmem').trans hq)
    · rw [hbatch] at hq
      cases hq
  · refine h.polled q t ?_
    rcases hq with hq | hq
    all_goals
      split at hq
      · cases hq
      · simp [hq]
  · exact hdue q hq

/-- The event after a softirq that leaves `q` as the first timer. -/
def Timers.nextEvent (s : Timers) : Option Nat → Option Nat
  | none => s.event
  | some q => some (s.now + nsecUntil (s.deadline q) s.now)

/-- A softirq that finds no expired timer does nothing. -/
theorem softirq_idle {l : List Nat} (hchain : Chain s.pnext s.ptimer l) (hnone : s.batchSize l = 0) :
    runHrtimerSoftirq s = s := by
  rw [runHrtimerSoftirq]
  split
  · rfl
  · cases l with
    | nil => rw [show s.ptimer = none from hchain]
    | cons p ids =>
        rw [show s.ptimer = some p from hchain.1]
        dsimp only
        refine if_pos (Nat.lt_of_not_le fun hdue => ?_)
        rw [Timers.batchSize, List.countP_cons_of_pos (by simpa using hdue)] at hnone
        omega

/-- A softirq that finds expired timers takes the first of them and sets the event for the next. -/
theorem softirq_eq {l : List Nat} (hchain : Chain s.pnext s.ptimer l)
    (hsorted : l.Pairwise fun p q => s.deadline p ≤ s.deadline q) (hbatch : s.batch = [])
    (hsome : s.batchSize l ≠ 0) :
    ∃ pre last, l = pre ++ last :: l.drop (s.batchSize l) ∧
      l.take (s.batchSize l) = pre ++ [last] ∧ (∀ q ∈ pre ++ [last], s.deadline q ≤ s.now) ∧
      runHrtimerSoftirq s = { s with
        ptimer := s.pnext last
        batch := pre ++ [last]
        uptime := s.now
        event := s.nextEvent (s.pnext last) } := by
  cases l with
  | nil => exact absurd (by simp [Timers.batchSize]) hsome
  | cons p ids =>
      have hdue : s.deadline p ≤ s.now := by
        refine Nat.le_of_not_lt fun hlt => hsome ?_
        rw [Timers.batchSize, List.countP_eq_zero.2, Nat.min_zero]
        intro q hq
        have hle : s.deadline p ≤ s.deadline q := by
          rcases List.mem_cons.1 hq with rfl | hq
          · exact Nat.le_refl _
          · exact (List.pairwise_cons.1 hsorted).1 q hq
        simp only [decide_eq_true_eq]
        omega
      obtain ⟨rest, last, pre, heq, hrest, hlast⟩ := takeBatch_spec hchain 19
      have htake : (p :: ids).take (s.batchSize (p :: ids)) = pre ++ [last] := by
        rw [Timers.batchSize, ← takeWhile_eq_take hsorted s.now 20, List.take_succ_cons,
          List.takeWhile_cons_of_pos (by simpa using hdue), ← hrest, hlast]
      refine ⟨pre, last, ?_, htake, fun q hq => ?_, ?_⟩
      · have hmove : pre ++ last :: (p :: ids).drop (s.batchSize (p :: ids)) =
            (pre ++ [last]) ++ (p :: ids).drop (s.batchSize (p :: ids)) := by simp
        rw [hmove, ← htake, List.take_append_drop]
      · rw [← hlast] at hq
        rcases List.mem_cons.1 hq with rfl | hq
        · exact hdue
        · rw [hrest] at hq
          simpa using List.mem_takeWhile_imp hq
      · rw [runHrtimerSoftirq, if_neg (not_not.2 hbatch), show s.ptimer = some p from hchain.1]
        dsimp only
        rw [if_neg (Nat.not_lt.2 hdue), heq, hlast]
        cases s.pnext last with
        | none => rfl
        | some q => rfl

theorem TimersAt.softirq (h : TimersAt s none lists place) :
    ∃ lists' place', TimersAt (runHrtimerSoftirq s) none lists' place' ∧
      (s.batch = [] →
        (runHrtimerSoftirq s).batch = (lists .pending).take (s.batchSize (lists .pending)) ∧
        lists' .pending = (lists .pending).drop (s.batchSize (lists .pending))) := by
  have hchain : Chain s.pnext s.ptimer (lists .pending) := h.family.chain .pending
  by_cases hbatch : s.batch = []
  · by_cases hsize : s.batchSize (lists .pending) = 0
    · rw [softirq_idle hchain hsize, hsize]
      exact ⟨lists, place, h, fun _ => ⟨hbatch, rfl⟩⟩
    · obtain ⟨pre, last, hlist, htake, hdue, heq⟩ := softirq_eq hchain h.sorted hbatch hsize
      rw [heq]
      refine ⟨_, _, h.toBatch hbatch hlist hdue, fun _ => ⟨htake.symm, ?_⟩⟩
      rw [Function.update_self]
  · rw [runHrtimerSoftirq, if_pos hbatch]
    exact ⟨lists, place, h, fun hnil => absurd hnil hbatch⟩

/-! ## Callbacks and poll lists -/

/-- The loose node goes to the front of a list other than the pending one. -/
theorem TimersAt.push {k : TimerList} (h : TimersAt s (some p) lists place) (hk : k ≠ .pending)
    (hcbs : ∀ q, q ≠ p → s'.cbs q = s.cbs q)
    (hpnext : s'.pnext = Function.update s.pnext p (s.heads k))
    (hheads : s'.heads = Function.update s.heads k (some p)) (hsame : SameTimers s s')
    (hhandle : k ≠ .free → (s'.cbs p).handle = .timeoutPoll) :
    TimersAt s' none (Function.update lists k (p :: lists k)) (Function.update place p (some k)) := by
  obtain ⟨hplace, hbatch, hcalling⟩ := h.loose_free p rfl
  have hkeep : ∀ r, r ≠ p → Function.update place p (some k) r = place r := fun r hr =>
    Function.update_of_ne hr ..
  -- `k` is not the list of the pending timers, so the node does not become armed
  have harmed : ∀ r, s'.Armed (Function.update place p (some k)) r → r ≠ p ∧ s.Armed place r := by
    rintro r (hr | hr)
    · by_cases hrp : r = p
      · rw [hrp, Function.update_self] at hr
        exact absurd (Option.some.inj hr) hk
      · rw [hkeep r hrp] at hr
        exact ⟨hrp, .inl hr⟩
    · rw [hsame.batch] at hr
      exact ⟨fun heq => hbatch (heq ▸ hr), .inr hr⟩
  constructor
  case family =>
      rw [hpnext, hheads]
      exact h.family.push hplace
  case batch => exact hsame.batch ▸ h.batch
  case calling => exact hsame.calling ▸ h.calling
  case batch_calling =>
      rw [hsame.batch, hsame.calling]
      exact h.batch_calling
  case batch_place => exact fun r hr => h.batch_off hbatch (hsame.batch ▸ hr)
  case calling_place => exact fun r hr => h.calling_off hcalling (hsame.calling ▸ hr)
  case loose_free => exact fun r hr => absurd hr (by simp)
  case nodes =>
      intro r
      rw [hsame.nodes, hsame.batch, hsame.calling, h.nodes]
      by_cases hrp : r = p
      · subst hrp
        simp
      · rw [hkeep r hrp]
        simp [Ne.symm hrp]
  case sorted =>
      rw [Function.update_of_ne (Ne.symm hk)]
      refine h.sorted.imp_of_mem fun {r r'} hr hr' hle => ?_
      rw [h.family.mem] at hr hr'
      have hrp : r ≠ p := fun heq => by simp [heq, hplace] at hr
      have hrp' : r' ≠ p := fun heq => by simp [heq, hplace] at hr'
      rw [Timers.deadline, Timers.deadline, hcbs r hrp, hcbs r' hrp']
      exact hle
  case armed =>
      intro r hr
      obtain ⟨hrp, hr⟩ := harmed r hr
      have hcb := h.armed r hr
      rw [hcbs r hrp]
      exact ⟨hcb.count, hsame.accepted ▸ hcb.deadline, hsame.log ▸ hcb.param_new, hcb.handle⟩
  case inj =>
      intro r r' hr hr'
      obtain ⟨hrp, hr⟩ := harmed r hr
      obtain ⟨hrp', hr'⟩ := harmed r' hr'
      rw [hcbs r hrp, hcbs r' hrp']
      exact h.inj r r' hr hr'
  case kept =>
      refine h.kept_of hsame.accepted hsame.log fun r hr => ?_
      have hrp : r ≠ p := by
        rintro rfl
        rcases hr with hr | hr
        · rw [hplace] at hr
          cases hr
        · exact hbatch hr
      rw [hcbs r hrp]
      exact ⟨hr.imp (hkeep r hrp).trans (hsame.batch ▸ ·), rfl⟩
  case polled =>
      intro r t hr
      by_cases hrp : r = p
      · subst hrp
        refine hhandle ?_
        rintro rfl
        rw [Function.update_self] at hr
        rcases hr with hr | hr <;> cases hr
      · rw [hkeep r hrp] at hr
        rw [hcbs r hrp]
        exact h.polled r t hr
  case due =>
      intro r hr
      rw [hsame.batch] at hr
      rw [Timers.deadline, hcbs r fun heq => hbatch (heq ▸ hr), hsame.uptime]
      exact h.due r hr
  case log_nodup => exact hsame.log ▸ h.log_nodup
  case log_due =>
      rw [hsame.log, hsame.accepted]
      exact h.log_due

/-- The callback of the loose node starts. -/
theorem TimersAt.call (h : TimersAt s (some p) lists place) :
    TimersAt { s with calling := p :: s.calling } none lists place := by
  obtain ⟨hplace, hbatch, hcalling⟩ := h.loose_free p rfl
  refine { h with
    calling := List.nodup_cons.2 ⟨hcalling, h.calling⟩
    batch_calling := fun r hr hmem => ?_
    calling_place := fun r hr => ?_
    loose_free := fun r hr => absurd hr (by simp)
    nodes := fun r => ?_
    armed := fun r hr => ?_ }
  · rcases List.mem_cons.1 hmem with rfl | hmem
    · exact hbatch hr
    · exact h.batch_calling r hr hmem
  · rcases List.mem_cons.1 hr with rfl | hr
    · exact hplace
    · exact h.calling_place r hr
  · show r < s.nodes ↔ _
    rw [h.nodes]
    simp only [List.mem_cons, Option.some.injEq]
    grind
  · have hcb := h.armed r hr
    exact ⟨hcb.count, hcb.deadline, hcb.param_new, hcb.handle⟩

/-- A callback returns, and its node is loose. -/
theorem TimersAt.uncall (h : TimersAt s none lists place) (hp : p ∈ s.calling) :
    TimersAt { s with calling := s.calling.erase p } (some p) lists place := by
  have hnot : p ∉ s.calling.erase p := fun hmem => (h.calling.mem_erase_iff.1 hmem).1 rfl
  refine { h with
    calling := h.calling.erase p
    batch_calling := fun r hr hmem => h.batch_calling r hr (List.mem_of_mem_erase hmem)
    calling_place := fun r hr => h.calling_place r (List.mem_of_mem_erase hr)
    loose_free := fun r hr => ?_
    nodes := fun r => ?_
    armed := fun r hr => ?_ }
  · obtain rfl := Option.some.inj hr
    exact ⟨h.calling_place p hp, fun hmem => h.batch_calling p hmem hp, hnot⟩
  · show r < s.nodes ↔ _
    rw [h.nodes, h.calling.mem_erase_iff, Option.some.injEq]
    grind
  · have hcb := h.armed r hr
    exact ⟨hcb.count, hcb.deadline, hcb.param_new, hcb.handle⟩

theorem TimersAt.free (h : TimersAt s (some p) lists place) :
    ∃ lists' place', TimersAt (freePoll s p) none lists' place' := by
  refine ⟨_, _, h.push (k := .free) (by simp) (fun q hq => Function.update_of_ne hq ..) ?_
    (heads_pfree _ _) ⟨rfl, rfl, rfl, rfl, rfl, rfl⟩ fun hk => absurd rfl hk⟩
  exact s.set_pnext_eq p _

/-- The next timer of the array is loose, and its dispatch is recorded. -/
theorem TimersAt.unbatch {rest : List Nat} {cb : TimeoutCb} (h : TimersAt s none lists place)
    (hbatch : s.batch = p :: rest) :
    TimersAt { s.set p cb with
      batch := rest
      log := s.log ++ [{ param := (s.cbs p).param, uptime := s.uptime }] } (some p) lists place := by
  have hmem : p ∈ s.batch := by simp [hbatch]
  have hplace := h.batch_place p hmem
  have hnodup := h.batch
  rw [hbatch] at hnodup
  obtain ⟨hnot, hrest⟩ := List.nodup_cons.1 hnodup
  have hsub : ∀ r ∈ rest, r ∈ s.batch := fun r hr => by simp [hbatch, hr]
  -- the record written is that of the loose node, which is on no list
  have hne : ∀ r, place r ≠ none ∨ r ∈ rest → r ≠ p := by
    rintro r (hr | hr) rfl
    · exact hr hplace
    · exact hnot hr
  have hcbs : ∀ r, place r ≠ none ∨ r ∈ rest → (s.set p cb).cbs r = s.cbs r := fun r hr =>
    Timers.set_of_ne (hne r hr) cb
  have harmed : ∀ r, place r = some .pending ∨ r ∈ rest →
      (place r ≠ none ∨ r ∈ rest) ∧ s.Armed place r := by
    rintro r (hr | hr)
    · exact ⟨.inl (by simp [hr]), .inl hr⟩
    · exact ⟨.inr hr, .inr (hsub r hr)⟩
  have hcb := h.armed p (.inr hmem)
  constructor
  case family =>
      show Family (s.set p cb).pnext s.heads lists place
      rw [s.set_pnext_eq]
      exact h.family.write hplace _
  case batch => exact hrest
  case calling => exact h.calling
  case batch_calling => exact fun r hr => h.batch_calling r (hsub r hr)
  case batch_place => exact fun r hr => h.batch_place r (hsub r hr)
  case calling_place => exact h.calling_place
  case loose_free =>
      intro r hr
      obtain rfl := Option.some.inj hr
      exact ⟨hplace, hnot, h.batch_calling p hmem⟩
  case nodes =>
      intro r
      show r < s.nodes ↔ place r ≠ none ∨ r ∈ rest ∨ r ∈ s.calling ∨ some p = some r
      rw [h.nodes, hbatch]
      simp only [List.mem_cons, Option.some.injEq]
      grind
  case sorted =>
      refine h.sorted.imp_of_mem fun {r r'} hr hr' hle => ?_
      rw [h.family.mem] at hr hr'
      show ((s.set p cb).cbs r).deadline ≤ ((s.set p cb).cbs r').deadline
      rw [hcbs r (.inl (by simp [hr])), hcbs r' (.inl (by simp [hr']))]
      exact hle
  case armed =>
      intro r hr
      obtain ⟨hr, hra⟩ := harmed r hr
      have hold := h.armed r hra
      -- the log gains one number, and a number is armed at most once
      have hparam : (s.cbs r).param ≠ (s.cbs p).param := fun heq =>
        hne r hr (h.inj r p hra (.inr hmem) heq)
      show ArmedCb _ ((s.set p cb).cbs r)
      rw [hcbs r hr]
      refine ⟨hold.count, hold.deadline, fun hin => ?_, hold.handle⟩
      rw [List.map_append, List.mem_append] at hin
      rcases hin with hin | hin
      · exact hold.param_new hin
      · exact hparam (List.mem_singleton.1 hin)
  case inj =>
      intro r r' hr hr'
      obtain ⟨hr, hra⟩ := harmed r hr
      obtain ⟨hr', hra'⟩ := harmed r' hr'
      show ((s.set p cb).cbs r).param = ((s.set p cb).cbs r').param → _
      rw [hcbs r hr, hcbs r' hr']
      exact h.inj r r' hra hra'
  case kept =>
      intro i hi
      rw [List.map_append, List.mem_append]
      rcases h.kept i hi with hlog | ⟨q, hq, rfl⟩
      · exact .inl (.inl hlog)
      · by_cases hqp : q = p
        · exact .inl (.inr (hqp ▸ List.mem_singleton_self _))
        · refine .inr ⟨q, ?_, congrArg TimeoutCb.param (Timers.set_of_ne hqp cb)⟩
          refine hq.imp_right fun hmem => ?_
          rw [hbatch] at hmem
          exact (List.mem_cons.1 hmem).resolve_left hqp
  case polled =>
      intro r t hr
      show ((s.set p cb).cbs r).handle = _
      rw [hcbs r (.inl (by rcases hr with hr | hr <;> simp [hr]))]
      exact h.polled r t hr
  case due =>
      intro r hr
      show ((s.set p cb).cbs r).deadline ≤ _
      rw [hcbs r (.inr hr)]
      exact h.due r (hsub r hr)
  case log_nodup =>
      rw [List.map_append, List.nodup_append]
      refine ⟨h.log_nodup, List.nodup_singleton _, ?_⟩
      rintro i hi i' hi' rfl
      obtain rfl := List.mem_singleton.1 hi'
      exact hcb.param_new hi
  case log_due =>
      intro e he
      rcases List.mem_append.1 he with he | he
      · exact h.log_due e he
      · obtain ⟨d, hd, heq⟩ := hcb.deadline
        rw [List.mem_singleton.1 he]
        exact ⟨d, hd, heq ▸ h.due p hmem⟩

theorem TimersAt.dispatch (h : TimersAt s none lists place) :
    ∃ s', s.dispatch = .ok s' ∧ ∃ lists' place', TimersAt s' none lists' place' := by
  rw [Timers.dispatch]
  cases hbatch : s.batch with
  | nil => exact ⟨s, rfl, lists, place, h⟩
  | cons p rest =>
      have hcb := h.armed p (.inr (by simp [hbatch]))
      have hzero : (s.cbs p).count - 1 = 0 := by
        rw [hcb.count]
        rfl
      have hloose := @TimersAt.unbatch _ _ _ _ _ { s.cbs p with count := (s.cbs p).count - 1 } h hbatch
      dsimp only
      rw [timerCb]
      dsimp only
      rw [assert_bind hzero]
      split
      case isTrue => exact ⟨_, rfl, _, _, hloose.call⟩
      case isFalse hthread =>
          have hpoll := (hloose.loose_free p rfl).1
          refine ⟨_, rfl, ?_⟩
          rw [Timers.addPoll]
          split
          case isFalse hlast =>
              -- A node in the array is on no poll list.
              obtain ⟨rest', hlist⟩ := hloose.exists_head
                (k := .poll _) (Classical.not_not.1 hlast)
              have hmem := (hloose.family.mem _ p).1 (hlist ▸ List.mem_cons_self)
              rw [hpoll] at hmem
              cases hmem
          case isTrue =>
              refine ⟨_, _, hloose.push (by simp) (fun q hq => Timers.set_of_ne hq _) ?_
                (heads_polls _ _ _) ⟨rfl, rfl, rfl, rfl, rfl, rfl⟩ fun _ => ?_⟩
              · exact Timers.set_pnext_eq ..
              · show ((Timers.setNext _ p _).cbs p).handle = _
                rw [Timers.setNext, Timers.set_self]
                show ((s.set p _).cbs p).handle = _
                rw [Timers.set_self]
                exact hcb.handle hthread

theorem TimersAt.finish (h : TimersAt s none lists place) (p : Nat) :
    ∃ lists' place', TimersAt (callbackReturn s p) none lists' place' := by
  rw [callbackReturn]
  split
  case isTrue hp => exact (h.uncall hp).free
  case isFalse => exact ⟨lists, place, h⟩

theorem TimersAt.drain (h : TimersAt s none lists place) (t : Nat) :
    ∃ lists' place', TimersAt (drainStart s t) none lists' place' := by
  rw [drainStart]
  split
  case isFalse => exact ⟨lists, place, h⟩
  case isTrue hdrain =>
      have hne : TimerList.drain t ≠ .poll t := by simp
      have hnone : ∀ q, place q = none →
          (if place q = some (.poll t) then some (.drain t) else place q) = none := fun q hq => by
        simp [hq]
      have harmed : ∀ q, Timers.Armed { s with polls := Function.update s.polls t none
                                               drains := Function.update s.drains t (s.polls t) }
          (fun q => if place q = some (.poll t) then some (.drain t) else place q) q →
          s.Armed place q := by
        rintro q (hq | hq)
        · dsimp only at hq
          split at hq
          · cases hq
          · exact .inl hq
        · exact .inr hq
      have hheads : ({ { s with polls := Function.update s.polls t none } with
          drains := Function.update s.drains t (s.polls t) } : Timers).heads =
          Function.update (Function.update s.heads (.poll t) none) (.drain t) (s.heads (.poll t)) := by
        rw [heads_drains, heads_polls]
        rfl
      have hfamily := h.family.move hne hdrain
      rw [← hheads] at hfamily
      refine ⟨_, _, ⟨hfamily, h.batch, h.calling, h.batch_calling,
        fun q hq => hnone q (h.batch_place q hq), fun q hq => hnone q (h.calling_place q hq),
        fun q hq => absurd hq (by simp), ?nodes, ?sorted, fun q hq => ?armed,
        fun q r hq hr => h.inj q r (harmed q hq) (harmed r hr), h.kept_of rfl rfl fun q hq => ⟨?kept, rfl⟩,
        fun q u hq => ?polled, h.due, h.log_nodup, h.log_due⟩⟩
      case nodes =>
          intro q
          show q < s.nodes ↔ _
          rw [h.nodes]
          split
          case isTrue hq => simp [hq]
          case isFalse => rfl
      case sorted =>
          rw [Function.update_of_ne (by simp), Function.update_of_ne (by simp)]
          exact h.sorted
      case armed =>
          have hcb := h.armed q (harmed q hq)
          exact ⟨hcb.count, hcb.deadline, hcb.param_new, hcb.handle⟩
      case kept =>
          refine hq.imp_left fun hq => ?_
          dsimp only
          rw [hq]
          simp
      case polled =>
          by_cases hpoll : place q = some (.poll t)
          · exact h.polled q t (.inl hpoll)
          · rw [if_neg hpoll] at hq
            exact h.polled q u hq

theorem TimersAt.poll (h : TimersAt s none lists place) (t : Nat) :
    ∃ s', drainTurn s t = .ok s' ∧ ∃ lists' place', TimersAt s' none lists' place' := by
  rw [drainTurn]
  cases hhead : s.drains t with
  | none => exact ⟨s, rfl, lists, place, h⟩
  | some p =>
      obtain ⟨rest, hlist⟩ := h.exists_head (k := .drain t) hhead
      have hplace : place p = some (.drain t) := (h.family.mem _ p).1 (by simp [hlist])
      have hhandle := h.polled p t (.inr hplace)
      have hloose := @TimersAt.pop _ { s with drains := Function.update s.drains t (s.pnext p) } _ _ _ _ _ h
        (by simp) hlist rfl (heads_drains s t _) ⟨rfl, rfl, rfl, rfl, rfl, rfl⟩
      have hwritten := hloose.fill { s.cbs p with pnext := none, handle := .timeoutPoll }
      dsimp only
      rw [Timers.setNext, Timers.set_self]
      dsimp only
      rw [hhandle]
      exact ⟨_, rfl, _, _, hwritten.call⟩

end Moves

end Yaos
