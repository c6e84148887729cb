import Yaos.Kthread.Poll

set_option autoImplicit false

/-! # Which polls are run

A drain of a thread calls the handle of exactly the nodes that the links lead to from the heads of
its lists, and always ends, because it takes away each link it follows. So a node is lost when no
link leads to it any more. Adding a node rewrites one link, its own: what is lost is what was only
reached through it. -/

namespace Yaos

open Chains

section SetNext

variable (s : PollLists) (p : Nat) (link : Option Nat)

theorem setNext_pnext : (s.setNext p link).pnext = Function.update s.pnext p link := by
  funext i
  by_cases hi : i = p
  · subst hi
    simp [PollLists.setNext, PollLists.pnext]
  · simp [PollLists.setNext, PollLists.pnext, Function.update_of_ne hi]

@[simp] theorem setNext_polls : (s.setNext p link).polls = s.polls := rfl

@[simp] theorem setNext_thread (i : Nat) : ((s.setNext p link).cbs i).thread = (s.cbs i).thread := by
  by_cases hi : i = p
  · subst hi
    simp [PollLists.setNext]
  · simp [PollLists.setNext, Function.update_of_ne hi]

@[simp] theorem setNext_data (i : Nat) : ((s.setNext p link).cbs i).data = (s.cbs i).data := by
  by_cases hi : i = p
  · subst hi
    simp [PollLists.setNext]
  · simp [PollLists.setNext, Function.update_of_ne hi]

end SetNext

/-! ## Draining -/

/-- What a drain from `phead` does: it calls the nodes that the links lead to, with their data, and
    takes their links away. -/
structure Drained (s : PollLists) (phead : Option Nat) (calls : List (Nat × Nat)) (s' : PollLists) :
    Prop where
  called : ∀ i, i ∈ calls.map Prod.fst ↔ Visits s.pnext phead i
  data : ∀ c ∈ calls, c.2 = (s.cbs c.1).data
  kept : ∀ i, ¬ Visits s.pnext phead i → s'.pnext i = s.pnext i
  cut : ∀ i, Visits s.pnext phead i → s'.pnext i = none
  same : ∀ i, (s'.cbs i).data = (s.cbs i).data

theorem doPollHead_none (fuel : Nat) (s : PollLists) : doPollHead fuel s none = .ok ([], s) := by
  cases fuel <;> rfl

theorem drained_none (s : PollLists) : Drained s none [] s := by
  refine ⟨fun i => ?_, ?_, fun _ _ => rfl, ?_, fun _ => rfl⟩
  · exact iff_of_false (by simp) (fun h => nomatch h)
  · intro c hc
    cases hc
  · intro i hi
    cases hi

/-- One step of a drain. -/
theorem Drained.step {s s' : PollLists} {p : Nat} {calls : List (Nat × Nat)}
    (h : Drained (s.setNext p none) (s.pnext p) calls s') :
    Drained s (some p) ((p, (s.cbs p).data) :: calls) s' := by
  have hiff : ∀ i, Visits s.pnext (some p) i ↔
      i = p ∨ Visits (s.setNext p none).pnext (s.pnext p) i := by
    intro i
    rw [setNext_pnext]
    exact visits_some_iff
  refine ⟨fun i => ?_, ?_, ?_, ?_, fun i => ?_⟩
  · rw [hiff, List.map_cons, List.mem_cons, h.called]
  · intro c hc
    rcases List.mem_cons.1 hc with rfl | hc
    · rfl
    · rw [h.data c hc, setNext_data]
  · intro i hi
    rw [hiff, not_or] at hi
    rw [h.kept i hi.2, setNext_pnext, Function.update_of_ne hi.1]
  · intro i hi
    by_cases hrest : Visits (s.setNext p none).pnext (s.pnext p) i
    · exact h.cut i hrest
    · obtain rfl := ((hiff i).1 hi).resolve_right hrest
      rw [h.kept i hrest, setNext_pnext, Function.update_self]
  · rw [h.same, setNext_data]

/-- `do_poll_head` ends: every step but the last takes a link away. -/
theorem doPollHead_spec (fuel : Nat) {s : PollLists} {phead : Option Nat} (ns : Finset Nat)
    (hns : ∀ i, Visits s.pnext phead i → i ∈ ns)
    (hfuel : (ns.filter fun i => (s.pnext i).isSome).card < fuel) :
    ∃ calls s', doPollHead fuel s phead = .ok (calls, s') ∧ Drained s phead calls s' := by
  induction fuel generalizing s phead with
  | zero => exact absurd hfuel (Nat.not_lt_zero _)
  | succ fuel ih =>
      cases phead with
      | none => exact ⟨[], s, rfl, drained_none s⟩
      | some p =>
          cases hlink : s.pnext p with
          | none =>
              refine ⟨_, _, ?_, Drained.step (by rw [hlink]; exact drained_none _)⟩
              rw [doPollHead, hlink, doPollHead_none]
              rfl
          | some q =>
              have hfewer : (ns.filter fun i => ((s.setNext p none).pnext i).isSome).card <
                  (ns.filter fun i => (s.pnext i).isSome).card := by
                refine Finset.card_lt_card (Finset.ssubset_iff_of_subset ?_ |>.2 ⟨p, ?_, ?_⟩)
                · intro i hi
                  rw [Finset.mem_filter, setNext_pnext] at hi
                  rw [Finset.mem_filter]
                  refine ⟨hi.1, ?_⟩
                  by_cases hip : i = p
                  · rw [hip, hlink]
                    rfl
                  · rw [Function.update_of_ne hip] at hi
                    exact hi.2
                · rw [Finset.mem_filter, hlink]
                  exact ⟨hns p (.here p), rfl⟩
                · rw [Finset.mem_filter, setNext_pnext, Function.update_self]
                  simp
              have hrest : ∀ i, Visits (s.setNext p none).pnext (s.pnext p) i → i ∈ ns := by
                intro i hi
                rw [setNext_pnext] at hi
                exact hns i (visits_some_iff.2 (.inr hi))
              obtain ⟨calls, s', hrun, hdrained⟩ := ih hrest (by omega)
              refine ⟨_, s', ?_, hdrained.step⟩
              rw [doPollHead, hrun]
              rfl

/-- Draining several lists calls the nodes reached from one of the heads. -/
theorem doPollHeads_spec {fuel : Nat} {s : PollLists} {pheads : List (Option Nat)} (ns : Finset Nat)
    (hns : ∀ phead ∈ pheads, ∀ i, Visits s.pnext phead i → i ∈ ns) (hfuel : ns.card < fuel) :
    ∃ calls s', doPollHeads fuel s pheads = .ok (calls, s') ∧
      (∀ i, i ∈ calls.map Prod.fst ↔ ∃ phead ∈ pheads, Visits s.pnext phead i) ∧
      ∀ c ∈ calls, c.2 = (s.cbs c.1).data := by
  induction pheads generalizing s with
  | nil => exact ⟨[], s, rfl, by simp, by simp⟩
  | cons phead pheads ih =>
      have hcard := Finset.card_filter_le ns fun i => (s.pnext i).isSome
      obtain ⟨calls, s₁, hrun, hdrained⟩ := doPollHead_spec fuel ns
        (hns phead (List.mem_cons_self ..)) (by omega)
      -- the first drain takes links away, so the later ones reach no more than before
      have hless : ∀ h i, Visits s₁.pnext h i → Visits s.pnext h i := by
        intro h i hv
        induction hv with
        | here i => exact .here i
        | @there i j hij ihv =>
            by_cases hi : Visits s.pnext phead i
            · rw [hdrained.cut i hi] at hij
              cases hij
            · rw [hdrained.kept i hi] at ihv
              exact .there ihv
      obtain ⟨more, s₂, hmore, hcalled, hdata⟩ := ih (s := s₁) fun h hh i hv =>
        hns h (List.mem_cons_of_mem _ hh) i (hless h i hv)
      refine ⟨calls ++ more, s₂, ?_, fun i => ?_, ?_⟩
      · rw [doPollHeads, hrun, ok_bind]
        dsimp only
        rw [hmore]
        rfl
      · rw [List.map_append, List.mem_append, hdrained.called, hcalled]
        constructor
        · rintro (hv | ⟨h, hh, hv⟩)
          · exact ⟨phead, List.mem_cons_self .., hv⟩
          · exact ⟨h, List.mem_cons_of_mem _ hh, hless h i hv⟩
        · rintro ⟨h, hh, hv⟩
          rcases List.mem_cons.1 hh with rfl | hh
          · exact .inl hv
          · have hor : Visits s.pnext phead i ∨ Visits s₁.pnext h i :=
              hv.of_closed (fun j k hj hk => hj.trans hk) hdrained.kept
            exact hor.imp_right fun hv => ⟨h, hh, hv⟩
      · intro c hc
        rcases List.mem_append.1 hc with hc | hc
        · exact hdrained.data c hc
        · rw [hdata c hc, hdrained.same]

/-- Following the links from a head of the thread `t` comes to `i`. -/
def Queued (s : PollLists) (t i : Nat) : Prop :=
  ∃ lvl, lvl < nrPollLvl ∧ Visits s.pnext (s.polls t lvl) i

theorem canMainRun_spec (fuel : Nat) {s : PollLists} {t : Nat} (ns : Finset Nat)
    (hns : ∀ i, Queued s t i → i ∈ ns) (hfuel : ns.card < fuel) :
    ∃ calls s', canMainRun fuel s t = .ok (calls, s') ∧
      (∀ i, i ∈ calls.map Prod.fst ↔ Queued s t i) ∧ ∀ c ∈ calls, c.2 = (s.cbs c.1).data := by
  have hheads : ∀ i, (∃ phead ∈ (List.range nrPollLvl).map (s.polls t), Visits s.pnext phead i) ↔
      Queued s t i := by
    intro i
    simp only [List.mem_map, List.mem_range, Queued]
    constructor
    · rintro ⟨phead, ⟨lvl, hlvl, rfl⟩, hv⟩
      exact ⟨lvl, hlvl, hv⟩
    · rintro ⟨lvl, hlvl, hv⟩
      exact ⟨_, ⟨lvl, hlvl, rfl⟩, hv⟩
  obtain ⟨calls, s', hrun, hcalled, hdata⟩ := doPollHeads_spec
    (s := { s with polls := Function.update s.polls t fun _ => none }) ns
    (fun phead hphead i hv => hns i ((hheads i).1 ⟨phead, hphead, hv⟩)) hfuel
  exact ⟨calls, s', hrun, fun i => (hcalled i).trans (hheads i), hdata⟩

/-! ## Adding -/

/-- Adding `p` is harmless where it is the head, or where every queued node is also reached without
    the link of `p`: `p` is not queued, or nothing lies behind it alone. -/
def Harmless (s : PollLists) (p lvl : Nat) : Prop :=
  s.polls (s.cbs p).thread lvl = some p ∨
    ∀ i, Queued s (s.cbs p).thread i → ∃ l, l < nrPollLvl ∧
      Visits (Function.update s.pnext p none) (s.polls (s.cbs p).thread l) i

/-- A node that is not queued can always be added. -/
theorem harmless_of_not_queued {s : PollLists} {p : Nat} (lvl : Nat)
    (h : ¬ Queued s (s.cbs p).thread p) : Harmless s p lvl := by
  right
  rintro i ⟨l, hl, hv⟩
  exact ⟨l, hl, (visits_update_iff_of_not fun hp => h ⟨l, hl, hp⟩).2 hv⟩

/-- So can a node with nothing behind it. -/
theorem harmless_of_last {s : PollLists} {p : Nat} (lvl : Nat) (h : s.pnext p = none) :
    Harmless s p lvl := by
  right
  rintro i ⟨l, hl, hv⟩
  refine ⟨l, hl, ?_⟩
  rw [← h, Function.update_eq_self]
  exact hv

@[simp] theorem push_thread (s : PollLists) (t p lvl i : Nat) :
    ((s.push t p lvl).cbs i).thread = (s.cbs i).thread := setNext_thread ..

theorem push_pnext (s : PollLists) (t p lvl : Nat) :
    (s.push t p lvl).pnext = Function.update s.pnext p (s.polls t lvl) := setNext_pnext ..

theorem push_polls_self (s : PollLists) (t p lvl : Nat) :
    (s.push t p lvl).polls t = Function.update (s.polls t) lvl (some p) := by
  simp [PollLists.push]

/-- What is queued after a node has been put in front of a list. -/
theorem queued_push {s : PollLists} {t p lvl i : Nat} (hlvl : lvl < nrPollLvl) :
    Queued (s.push t p lvl) t i ↔ i = p ∨ ∃ l, l < nrPollLvl ∧
      Visits (Function.update s.pnext p none) (s.polls t l) i := by
  rw [Queued, push_pnext, push_polls_self]
  constructor
  · rintro ⟨l, hl, hv⟩
    by_cases hll : l = lvl
    · subst hll
      rw [Function.update_self] at hv
      rcases visits_some_iff.1 hv with rfl | hv
      · exact .inl rfl
      · rw [Function.update_self, Function.update_idem] at hv
        exact .inr ⟨l, hl, hv⟩
    · rw [Function.update_of_ne hll] at hv
      rcases hv.cut_or with hv | hv
      · exact .inr ⟨l, hl, hv⟩
      · exact .inr ⟨lvl, hlvl, hv⟩
  · rintro (rfl | ⟨l, hl, hv⟩)
    · refine ⟨lvl, hlvl, ?_⟩
      rw [Function.update_self]
      exact .here _
    · by_cases hll : l = lvl
      · subst hll
        refine ⟨l, hl, ?_⟩
        rw [Function.update_self]
        refine .there ?_
        rw [Function.update_self]
        exact hv.of_cut
      · refine ⟨l, hl, ?_⟩
        rw [Function.update_of_ne hll]
        exact hv.of_cut

/-- The lists of another thread are not concerned, if `p` is on none of them. -/
theorem queued_push_of_ne {s : PollLists} {t t' p lvl i : Nat} (ht : t' ≠ t)
    (hp : ¬ Queued s t' p) : Queued (s.push t p lvl) t' i ↔ Queued s t' i := by
  have hpolls : (s.push t p lvl).polls t' = s.polls t' := by
    simp [PollLists.push, Function.update_of_ne ht]
  rw [Queued, push_pnext, hpolls, Queued]
  refine exists_congr fun l => and_congr_right fun hl => ?_
  exact visits_update_iff_of_not fun hv => hp ⟨l, hl, hv⟩

/-! ## Sequences of additions -/

/-- The calls `thread_add_poll(p, lvl)` of the list, one after the other. -/
def addPolls (s : PollLists) (adds : List (Nat × Nat)) : Except Fault PollLists :=
  adds.foldlM (fun s a => threadAddPoll s a.1 a.2) s

/-- After the additions `adds`, the next drain of `t` ends and calls every node of `t` among them. -/
def AllHandled (s : PollLists) (t : Nat) (adds : List (Nat × Nat)) : Prop :=
  ∃ s' calls s'', addPolls s adds = .ok s' ∧
    canMainRun (adds.length + 1) s' t = .ok (calls, s'') ∧
    ∀ a ∈ adds, (s.cbs a.1).thread = t → a.1 ∈ calls.map Prod.fst

/-- Each addition to a list of `t` is harmless in the state it is made in. -/
def AllHarmless (t : Nat) : PollLists → List (Nat × Nat) → Prop
  | _, [] => True
  | s, a :: adds => ((s.cbs a.1).thread = t → Harmless s a.1 a.2) ∧
      ∀ s', threadAddPoll s a.1 a.2 = .ok s' → AllHarmless t s' adds

/-- What is queued for `t` has been added since the last drain. -/
def Known (s : PollLists) (t : Nat) (added : List Nat) : Prop :=
  ∀ i, Queued s t i → i ∈ added ∧ (s.cbs i).thread = t

/-- What is queued for `t` has been added since the last drain, and all of it still is. -/
structure Holding (s : PollLists) (t : Nat) (added : List Nat) : Prop where
  known : Known s t added
  queued : ∀ i ∈ added, (s.cbs i).thread = t → Queued s t i

theorem threadAddPoll_ok (s : PollLists) (p : Nat) {lvl : Nat} (hlvl : lvl < nrPollLvl) :
    ∃ s', threadAddPoll s p lvl = .ok s' ∧ (∀ i, (s'.cbs i).thread = (s.cbs i).thread) ∧
      ((s.polls (s.cbs p).thread lvl = some p ∧ s' = s) ∨
        (s.polls (s.cbs p).thread lvl ≠ some p ∧ s' = s.push (s.cbs p).thread p lvl)) := by
  rw [threadAddPoll, assert_bind hlvl]
  dsimp only
  by_cases hhead : s.polls (s.cbs p).thread lvl = some p
  · rw [if_neg (not_not.2 hhead)]
    exact ⟨s, rfl, fun _ => rfl, .inl ⟨hhead, rfl⟩⟩
  · rw [if_pos hhead]
    exact ⟨_, rfl, fun i => push_thread .., .inr ⟨hhead, rfl⟩⟩

/-- What is queued after an addition: harmless or not, nothing that was not there and not added. -/
theorem Known.push {s : PollLists} {t p lvl : Nat} {added : List Nat} (h : Known s t added)
    (hlvl : lvl < nrPollLvl) : Known (s.push (s.cbs p).thread p lvl) t (added ++ [p]) := by
  intro i hi
  rw [push_thread]
  by_cases ht : (s.cbs p).thread = t
  · subst ht
    rcases (queued_push hlvl).1 hi with rfl | ⟨l, hl, hv⟩
    · exact ⟨by simp, rfl⟩
    · obtain ⟨hadded, ht⟩ := h i ⟨l, hl, hv.mono_cut⟩
      exact ⟨List.mem_append_left _ hadded, ht⟩
  · have hnot : ¬ Queued s t p := fun hq => ht (h p hq).2
    obtain ⟨hadded, ht⟩ := h i ((queued_push_of_ne (Ne.symm ht) hnot).1 hi)
    exact ⟨List.mem_append_left _ hadded, ht⟩

theorem Known.add {s s' : PollLists} {t p lvl : Nat} {added : List Nat} (h : Known s t added)
    (hlvl : lvl < nrPollLvl) (hrun : threadAddPoll s p lvl = .ok s') :
    Known s' t (added ++ [p]) := by
  obtain ⟨s₁, hrun₁, -, hcases⟩ := threadAddPoll_ok s p hlvl
  obtain rfl : s₁ = s' := Except.ok.inj (hrun₁.symm.trans hrun)
  rcases hcases with ⟨-, rfl⟩ | ⟨-, rfl⟩
  · exact fun i hi => ⟨List.mem_append_left _ (h i hi).1, (h i hi).2⟩
  · exact h.push hlvl

/-- One addition keeps everything queued exactly when it is harmless. -/
theorem Holding.add_iff {s s' : PollLists} {t p lvl : Nat} {added : List Nat}
    (h : Holding s t added) (hlvl : lvl < nrPollLvl) (hrun : threadAddPoll s p lvl = .ok s') :
    Holding s' t (added ++ [p]) ↔ ((s.cbs p).thread = t → Harmless s p lvl) := by
  have hknown := h.known.add hlvl hrun
  obtain ⟨s₁, hrun₁, -, hcases⟩ := threadAddPoll_ok s p hlvl
  obtain rfl : s₁ = s' := Except.ok.inj (hrun₁.symm.trans hrun)
  rcases hcases with ⟨hhead, rfl⟩ | ⟨hhead, rfl⟩
  · refine iff_of_true ⟨hknown, fun i hi ht => ?_⟩ fun _ => .inl hhead
    rcases List.mem_append.1 hi with hi | hi
    · exact h.queued i hi ht
    · obtain rfl := List.mem_singleton.1 hi
      refine ⟨lvl, hlvl, ?_⟩
      rw [← ht, hhead]
      exact .here i
  · by_cases ht : (s.cbs p).thread = t
    · subst ht
      constructor
      · intro h' _
        refine .inr fun i hi => ?_
        obtain ⟨hadded, ht⟩ := h.known i hi
        have hstill := h'.queued i (List.mem_append_left _ hadded) (by rw [push_thread]; exact ht)
        rcases (queued_push hlvl).1 hstill with rfl | hv
        · obtain ⟨l, hl, hv⟩ := hi
          exact ⟨l, hl, hv.self_cut⟩
        · exact hv
      · intro hharmless
        have hcut := (hharmless rfl).resolve_left hhead
        refine ⟨hknown, fun i hi ht => ?_⟩
        rw [push_thread] at ht
        rcases List.mem_append.1 hi with hi | hi
        · exact (queued_push hlvl).2 (.inr (hcut i (h.queued i hi ht)))
        · exact (queued_push hlvl).2 (.inl (List.mem_singleton.1 hi))
    · have hnot : ¬ Queued s t p := fun hq => ht (h.known p hq).2
      refine iff_of_true ⟨hknown, fun i hi hi' => ?_⟩ fun heq => absurd heq ht
      rw [push_thread] at hi'
      rcases List.mem_append.1 hi with hi | hi
      · exact (queued_push_of_ne (Ne.symm ht) hnot).2 (h.queued i hi hi')
      · obtain rfl := List.mem_singleton.1 hi
        exact absurd hi' ht

theorem addPolls_cons {s s₁ : PollLists} {a : Nat × Nat} (h : threadAddPoll s a.1 a.2 = .ok s₁)
    (adds : List (Nat × Nat)) : addPolls s (a :: adds) = addPolls s₁ adds := by
  rw [addPolls, List.foldlM_cons, h, ok_bind, addPolls]

/-- Everything stays queued all the way exactly when every addition is harmless. -/
theorem holding_iff_harmless {s : PollLists} {t : Nat} {added : List Nat}
    {adds : List (Nat × Nat)} (h : Holding s t added) (hlvl : ∀ a ∈ adds, a.2 < nrPollLvl) :
    (∀ pre, pre <+: adds →
      ∃ s', addPolls s pre = .ok s' ∧ Holding s' t (added ++ pre.map Prod.fst)) ↔
    AllHarmless t s adds := by
  induction adds generalizing s added with
  | nil =>
      refine iff_of_true (fun pre hpre => ?_) trivial
      obtain rfl := List.prefix_nil.1 hpre
      exact ⟨s, rfl, by simpa using h⟩
  | cons a adds ih =>
      have ha := hlvl a (List.mem_cons_self ..)
      have hlvl' : ∀ a ∈ adds, a.2 < nrPollLvl := fun a ha => hlvl a (List.mem_cons_of_mem _ ha)
      obtain ⟨s₁, hrun, -, -⟩ := threadAddPoll_ok s a.1 ha
      have hstep := h.add_iff ha hrun
      constructor
      · intro hall
        have h₁ : Holding s₁ t (added ++ [a.1]) := by
          obtain ⟨s', hs', hholding⟩ := hall [a] (by simp)
          rw [addPolls_cons hrun] at hs'
          obtain rfl : s₁ = s' := Except.ok.inj hs'
          exact hholding
        refine ⟨hstep.1 h₁, fun s' hs' => ?_⟩
        obtain rfl : s₁ = s' := Except.ok.inj (hrun.symm.trans hs')
        refine (ih h₁ hlvl').1 fun pre hpre => ?_
        obtain ⟨s', hs', hholding⟩ := hall (a :: pre) (List.cons_prefix_cons.2 ⟨rfl, hpre⟩)
        rw [addPolls_cons hrun] at hs'
        exact ⟨s', hs', by simpa using hholding⟩
      · rintro ⟨hharmless, hrest⟩ pre hpre
        have h₁ := hstep.2 hharmless
        cases pre with
        | nil => exact ⟨s, rfl, by simpa using h⟩
        | cons b pre =>
            obtain ⟨rfl, hpre'⟩ := List.cons_prefix_cons.1 hpre
            obtain ⟨s', hs', hholding⟩ := (ih h₁ hlvl').2 (hrest s₁ hrun) pre hpre'
            refine ⟨s', ?_, by simpa using hholding⟩
            rw [addPolls_cons hrun]
            exact hs'

/-- Additions keep the threads of all nodes, and what they queue is among them. -/
theorem addPolls_known {s : PollLists} {t : Nat} {added : List Nat} {adds : List (Nat × Nat)}
    (h : Known s t added) (hlvl : ∀ a ∈ adds, a.2 < nrPollLvl) :
    ∃ s', addPolls s adds = .ok s' ∧ (∀ i, (s'.cbs i).thread = (s.cbs i).thread) ∧
      Known s' t (added ++ adds.map Prod.fst) := by
  induction adds generalizing s added with
  | nil => exact ⟨s, rfl, fun _ => rfl, by simpa using h⟩
  | cons a adds ih =>
      have ha := hlvl a (List.mem_cons_self ..)
      obtain ⟨s₁, hrun, hthread, -⟩ := threadAddPoll_ok s a.1 ha
      obtain ⟨s', hs', hthread', hknown⟩ := ih (h.add ha hrun)
        fun a ha => hlvl a (List.mem_cons_of_mem _ ha)
      refine ⟨s', ?_, fun i => (hthread' i).trans (hthread i), by simpa using hknown⟩
      rw [addPolls_cons hrun]
      exact hs'

/-- A drain calls all nodes added exactly when all of them are still queued. -/
theorem allHandled_iff {s : PollLists} {t : Nat} {adds : List (Nat × Nat)} (h : Known s t [])
    (hlvl : ∀ a ∈ adds, a.2 < nrPollLvl) :
    AllHandled s t adds ↔ ∃ s', addPolls s adds = .ok s' ∧ Holding s' t (adds.map Prod.fst) := by
  obtain ⟨s', hs', hthread, hknown⟩ := addPolls_known h hlvl
  rw [List.nil_append] at hknown
  have hcard : (adds.map Prod.fst).toFinset.card < adds.length + 1 := by
    have hle := List.toFinset_card_le (adds.map Prod.fst)
    rw [List.length_map] at hle
    exact Nat.lt_succ_of_le hle
  obtain ⟨calls, s'', hrun, hcalled, -⟩ := canMainRun_spec (adds.length + 1)
    (adds.map Prod.fst).toFinset (fun i hi => List.mem_toFinset.2 (hknown i hi).1) hcard
  constructor
  · rintro ⟨s₁, calls₁, s₂, hs₁, hrun₁, hall⟩
    obtain rfl : s' = s₁ := Except.ok.inj (hs'.symm.trans hs₁)
    obtain ⟨rfl, -⟩ := Prod.mk.inj (Except.ok.inj (hrun.symm.trans hrun₁))
    refine ⟨s', hs', hknown, fun i hi ht => ?_⟩
    obtain ⟨a, ha, rfl⟩ := List.mem_map.1 hi
    rw [hthread] at ht
    exact (hcalled a.1).1 (hall a ha ht)
  · rintro ⟨s₁, hs₁, hholding⟩
    obtain rfl : s' = s₁ := Except.ok.inj (hs'.symm.trans hs₁)
    refine ⟨s', calls, s'', hs', hrun, fun a ha ht => ?_⟩
    refine (hcalled a.1).2 (hholding.queued a.1 (List.mem_map_of_mem ha) ?_)
    rw [hthread]
    exact ht

theorem not_queued_of_drained {s : PollLists} {t : Nat} (h : ∀ lvl, s.polls t lvl = none) (i : Nat) :
    ¬ Queued s t i := by
  rintro ⟨lvl, -, hv⟩
  rw [h lvl] at hv
  cases hv

/-- From a drained thread on, no poll is lost at any time exactly when every addition is
    harmless. -/
theorem polls_handled_iff (s : PollLists) (t : Nat) (adds : List (Nat × Nat))
    (hdrained : ∀ lvl, s.polls t lvl = none) (hlvl : ∀ a ∈ adds, a.2 < nrPollLvl) :
    (∀ pre, pre <+: adds → AllHandled s t pre) ↔ AllHarmless t s adds := by
  have hnone := not_queued_of_drained hdrained
  have hknown : Known s t [] := fun i hi => absurd hi (hnone i)
  have hholding : Holding s t [] := ⟨hknown, fun i hi => by cases hi⟩
  rw [← holding_iff_harmless hholding hlvl]
  refine forall_congr' fun pre => imp_congr_right fun hpre => ?_
  rw [allHandled_iff hknown fun a ha => hlvl a (hpre.subset ha)]
  simp

/-- Nodes of thread 0 that have never been linked, and empty lists. -/
def freshPolls : PollLists where
  cbs _ := { pnext := none, thread := 0, data := 0 }
  polls _ _ := none

/-- The last node of a list is added again, and the drain calls both. -/
theorem polls_handled_readd_last : AllHandled freshPolls 0 [(1, 0), (2, 0), (1, 0)] := by
  have hlvl : ∀ a ∈ [(1, 0), (2, 0), (1, 0)], a.2 < nrPollLvl := by decide
  refine (polls_handled_iff freshPolls 0 _ (fun _ => rfl) hlvl).2 ⟨?_, ?_⟩ _ List.prefix_rfl
  · exact fun _ => harmless_of_last 0 rfl
  · intro s₁ h₁
    obtain rfl := Except.ok.inj h₁
    refine ⟨fun _ => harmless_of_last 0 rfl, fun s₂ h₂ => ?_⟩
    obtain rfl := Except.ok.inj h₂
    exact ⟨fun _ => harmless_of_last 0 rfl, fun _ _ => trivial⟩

/-- Node 2 is added again with node 1 behind it: the drain calls 2, 3 and 2. -/
theorem polls_lost_readd_middle :
    ¬ AllHandled freshPolls 0 [(1, 0), (2, 0), (3, 0), (2, 0)] := by
  rintro ⟨s', calls, s'', hadd, hrun, hall⟩
  have hcalls : ((addPolls freshPolls [(1, 0), (2, 0), (3, 0), (2, 0)]).bind fun s' =>
      (canMainRun 5 s' 0).map fun r => r.1.map Prod.fst) = .ok [2, 3, 2] := by rfl
  rw [hadd] at hcalls
  have hrun' : canMainRun 5 s' 0 = .ok (calls, s'') := hrun
  simp only [Except.bind, hrun', Except.map] at hcalls
  have hone := hall (1, 0) (by simp) rfl
  rw [Except.ok.inj hcalls] at hone
  exact absurd hone (by decide)

end Yaos
