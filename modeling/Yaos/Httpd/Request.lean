import Mathlib.Data.List.Count
import Yaos.Kthread.Poll.Proofs

set_option autoImplicit false

/-! # Cleaning up a request (`module/httpd/httpd_request.c`)

`http_request_cleanup` does not destroy the pool of a request at once. It writes the request into the
one `poll_cb` of the CPU, `clean_poll`, and queues that node at the level of Lua; the next drain calls
the handle, which destroys the pool of the request it finds in the node. -/

namespace Yaos

open Chains

/-- `clean` is the `clean_poll` of the CPU and `t` the running thread. -/
def httpRequestCleanup (s : PollLists) (clean t r : Nat) : Except Fault PollLists :=
  threadAddPoll
    { s with cbs := Function.update s.cbs clean { pnext := none, thread := t, data := r } }
    clean pollLvlLua

/-- What happens at the level of Lua on one thread between two drains. -/
inductive LuaCall
  | cleanup (r : Nat)
  | poll (p : Nat)

/-- One call. -/
def luaCall (clean t : Nat) (s : PollLists) : LuaCall → Except Fault PollLists
  | .cleanup r => httpRequestCleanup s clean t r
  | .poll p => threadAddPoll s p pollLvlLua

/-- A run of calls. -/
def luaCalls (s : PollLists) (clean t : Nat) (cs : List LuaCall) : Except Fault PollLists :=
  cs.foldlM (luaCall clean t) s

/-- The node a call queues. -/
def LuaCall.node (clean : Nat) : LuaCall → Nat
  | .cleanup _ => clean
  | .poll p => p

/-- After the calls `cs`, the next drain cleans up each request once and calls every other node. -/
def CleanedUp (s : PollLists) (clean t : Nat) (cs : List LuaCall) : Prop :=
  ∃ s' calls s'', luaCalls s clean t cs = .ok s' ∧
    canMainRun (cs.length + 1) s' t = .ok (calls, s'') ∧
    (∀ r, .cleanup r ∈ cs → calls.count (clean, r) = 1) ∧
    ∀ p, .poll p ∈ cs → p ∈ calls.map Prod.fst

/-- A cleanup finds `clean_poll` not queued, and another node is added harmlessly. -/
def LuaCall.Safe (clean t : Nat) (s : PollLists) : LuaCall → Prop
  | .cleanup _ => ¬ Queued s t clean
  | .poll p => Harmless s p pollLvlLua

/-- Each call is safe in the state it is made in. -/
def AllSafe (clean t : Nat) : PollLists → List LuaCall → Prop
  | _, [] => True
  | s, c :: cs => c.Safe clean t s ∧ ∀ s', luaCall clean t s c = .ok s' → AllSafe clean t s' cs

/-! ## How often a drain comes to a node

A drain follows each link once. So it comes to `c` at most once if there is one link to it, or if it
is the head and there is none. -/

/-- Only one way leads to `c` from `phead`. -/
def OneWay (s : PollLists) (c : Nat) (phead : Option Nat) : Prop :=
  (phead = some c ∧ ∀ i, Visits s.pnext phead i → s.pnext i ≠ some c) ∨
  (phead ≠ some c ∧ ∀ i j, Visits s.pnext phead i → Visits s.pnext phead j →
    s.pnext i = some c → s.pnext j = some c → i = j)

theorem not_visits_of_no_link {next : Nat → Option Nat} {phead : Option Nat} {c : Nat}
    (hhead : phead ≠ some c) (hlink : ∀ i, Visits next phead i → next i ≠ some c) :
    ¬ Visits next phead c := by
  intro h
  generalize hc : c = d at h
  induction h with
  | here i => exact hhead (by rw [hc])
  | @there i j hij ih =>
      exact ih (hlink i (.here i)) (fun k hk => hlink k (.there hk)) hc

theorem doPollHead_cons {fuel : Nat} {s s' : PollLists} {p : Nat} {calls : List (Nat × Nat)}
    (h : doPollHead (fuel + 1) s (some p) = .ok (calls, s')) :
    ∃ rest, doPollHead fuel (s.setNext p none) (s.pnext p) = .ok (rest, s') ∧
      calls = (p, (s.cbs p).data) :: rest := by
  rw [doPollHead] at h
  obtain ⟨⟨rest, s₁⟩, hrest, heq⟩ := bind_eq_ok.1 h
  obtain ⟨rfl, rfl⟩ := Prod.mk.inj (Except.ok.inj heq)
  exact ⟨rest, hrest, rfl⟩

/-- The nodes visited behind `p` once its link is gone were visited before. -/
theorem visits_of_setNext {s : PollLists} {p i : Nat}
    (h : Visits (s.setNext p none).pnext (s.pnext p) i) : Visits s.pnext (some p) i := by
  rw [setNext_pnext] at h
  exact visits_some_iff.2 (.inr h)

/-- A drain calls only nodes it comes to. -/
theorem visits_of_mem_doPollHead {fuel : Nat} {s s' : PollLists} {phead : Option Nat}
    {calls : List (Nat × Nat)} (h : doPollHead fuel s phead = .ok (calls, s')) {i : Nat}
    (hi : i ∈ calls.map Prod.fst) : Visits s.pnext phead i := by
  induction fuel generalizing s phead calls with
  | zero =>
      cases phead with
      | none =>
          obtain ⟨rfl, -⟩ := Prod.mk.inj (Except.ok.inj h)
          cases hi
      | some p => cases h
  | succ fuel ih =>
      cases phead with
      | none =>
          obtain ⟨rfl, -⟩ := Prod.mk.inj (Except.ok.inj h)
          cases hi
      | some p =>
          obtain ⟨rest, hrest, rfl⟩ := doPollHead_cons h
          rcases List.mem_cons.1 hi with rfl | hi
          · exact .here _
          · exact visits_of_setNext (ih hrest hi)

theorem OneWay.behind {s : PollLists} {c p : Nat} (h : OneWay s c (some p)) (hp : p ≠ c) :
    OneWay (s.setNext p none) c (s.pnext p) := by
  obtain ⟨heq, -⟩ | ⟨-, huniq⟩ := h
  · exact absurd (Option.some.inj heq) hp
  · have hold : ∀ i, (s.setNext p none).pnext i = some c → i ≠ p ∧ s.pnext i = some c := by
      intro i hi
      rw [setNext_pnext] at hi
      by_cases hip : i = p
      · rw [hip, Function.update_self] at hi
        cases hi
      · rw [Function.update_of_ne hip] at hi
        exact ⟨hip, hi⟩
    by_cases hlink : s.pnext p = some c
    · refine .inl ⟨hlink, fun i hv hi => ?_⟩
      obtain ⟨hip, hi⟩ := hold i hi
      exact hip (huniq i p (visits_of_setNext hv) (.here p) hi hlink)
    · refine .inr ⟨hlink, fun i j hvi hvj hi hj => ?_⟩
      exact huniq i j (visits_of_setNext hvi) (visits_of_setNext hvj) (hold i hi).2 (hold j hj).2

/-- After the only way to `c` has been used, the drain does not come to it again. -/
theorem not_visits_behind_self {s : PollLists} {c : Nat} (h : OneWay s c (some c)) :
    ¬ Visits (s.setNext c none).pnext (s.pnext c) c := by
  obtain ⟨-, hno⟩ | ⟨hne, -⟩ := h
  · refine not_visits_of_no_link (hno c (.here c)) fun i hv hi => ?_
    rw [setNext_pnext] at hi
    by_cases hic : i = c
    · rw [hic, Function.update_self] at hi
      cases hi
    · rw [Function.update_of_ne hic] at hi
      exact hno i (visits_of_setNext hv) hi
  · exact absurd rfl hne

theorem doPollHead_count_le {fuel : Nat} {s s' : PollLists} {c : Nat} {phead : Option Nat}
    {calls : List (Nat × Nat)} (h : OneWay s c phead)
    (hrun : doPollHead fuel s phead = .ok (calls, s')) : (calls.map Prod.fst).count c ≤ 1 := by
  induction fuel generalizing s phead calls with
  | zero =>
      cases phead with
      | none =>
          obtain ⟨rfl, -⟩ := Prod.mk.inj (Except.ok.inj hrun)
          simp
      | some p => cases hrun
  | succ fuel ih =>
      cases phead with
      | none =>
          obtain ⟨rfl, -⟩ := Prod.mk.inj (Except.ok.inj hrun)
          simp
      | some p =>
          obtain ⟨rest, hrest, rfl⟩ := doPollHead_cons hrun
          rw [List.map_cons, List.count_cons]
          by_cases hp : p = c
          · subst hp
            have hnone : (rest.map Prod.fst).count p = 0 := List.count_eq_zero.2 fun hmem =>
              not_visits_behind_self h (visits_of_mem_doPollHead hrest hmem)
            simp [hnone]
          · simpa [hp] using ih (h.behind hp) hrest

/-! ## One call -/

/-- The state between two drains, after the calls `done`: only the level of Lua is used, by the nodes
    of these calls. -/
structure LuaState (s : PollLists) (clean t : Nat) (done : List LuaCall) : Prop where
  levels : ∀ lvl, lvl ≠ pollLvlLua → s.polls t lvl = none
  known : Known s t (done.map (LuaCall.node clean))
  threads : ∀ c ∈ done, (s.cbs (c.node clean)).thread = t

/-- All nodes are queued, and `clean_poll` names each request that was to be cleaned up. -/
structure LuaHeld (s : PollLists) (clean t : Nat) (done : List LuaCall) : Prop where
  queued : ∀ c ∈ done, Queued s t (c.node clean)
  data : ∀ r, .cleanup r ∈ done → (s.cbs clean).data = r

theorem pollLvlLua_lt : pollLvlLua < nrPollLvl := by decide

theorem LuaState.queued_iff {s : PollLists} {clean t : Nat} {done : List LuaCall}
    (h : LuaState s clean t done) {i : Nat} :
    Queued s t i ↔ Visits s.pnext (s.polls t pollLvlLua) i := by
  constructor
  · rintro ⟨lvl, -, hv⟩
    by_cases hlvl : lvl = pollLvlLua
    · rwa [hlvl] at hv
    · rw [h.levels lvl hlvl] at hv
      cases hv
  · exact fun hv => ⟨pollLvlLua, pollLvlLua_lt, hv⟩

/-- `http_request_cleanup` before it calls `thread_add_poll`. -/
def PollLists.setClean (s : PollLists) (clean t r : Nat) : PollLists :=
  { s with cbs := Function.update s.cbs clean { pnext := none, thread := t, data := r } }

theorem setClean_pnext (s : PollLists) (clean t r : Nat) :
    (s.setClean clean t r).pnext = Function.update s.pnext clean none := by
  funext i
  by_cases hi : i = clean
  · subst hi
    simp [PollLists.setClean, PollLists.pnext]
  · simp [PollLists.setClean, PollLists.pnext, Function.update_of_ne hi]

theorem setClean_self (s : PollLists) (clean t r : Nat) :
    (s.setClean clean t r).cbs clean = { pnext := none, thread := t, data := r } :=
  Function.update_self _ _ _

theorem setClean_of_ne (s : PollLists) {clean t r i : Nat} (hi : i ≠ clean) :
    (s.setClean clean t r).cbs i = s.cbs i := Function.update_of_ne hi _ _

theorem push_data (s : PollLists) (t p lvl i : Nat) :
    ((s.push t p lvl).cbs i).data = (s.cbs i).data := setNext_data ..

theorem threadAddPoll_data {s s' : PollLists} {p lvl : Nat} (hlvl : lvl < nrPollLvl)
    (h : threadAddPoll s p lvl = .ok s') (i : Nat) : (s'.cbs i).data = (s.cbs i).data := by
  obtain ⟨s₁, hrun, -, hcases⟩ := threadAddPoll_ok s p hlvl
  obtain rfl : s₁ = s' := Except.ok.inj (hrun.symm.trans h)
  rcases hcases with ⟨-, rfl⟩ | ⟨-, rfl⟩
  · rfl
  · exact push_data ..

/-- An addition at the level of Lua leaves the other levels empty. -/
theorem LuaState.add {s s' : PollLists} {clean t : Nat} {done : List LuaCall} (c : LuaCall)
    (h : LuaState s clean t done) (ht : (s.cbs (c.node clean)).thread = t)
    (hrun : threadAddPoll s (c.node clean) pollLvlLua = .ok s') :
    LuaState s' clean t (done ++ [c]) := by
  obtain ⟨s₁, hrun₁, hthread, hcases⟩ := threadAddPoll_ok s (c.node clean) pollLvlLua_lt
  obtain rfl : s₁ = s' := Except.ok.inj (hrun₁.symm.trans hrun)
  refine ⟨fun lvl hlvl => ?_, ?_, fun d hd => ?_⟩
  · rcases hcases with ⟨-, rfl⟩ | ⟨-, rfl⟩
    · exact h.levels lvl hlvl
    · rw [ht, push_polls_self, Function.update_of_ne hlvl]
      exact h.levels lvl hlvl
  · rw [List.map_append]
    exact h.known.add pollLvlLua_lt hrun
  · rw [hthread]
    rcases List.mem_append.1 hd with hd | hd
    · exact h.threads d hd
    · rw [List.mem_singleton.1 hd]
      exact ht

/-- Another node in front of the list becomes the only way, or leaves the one there was. -/
theorem LuaState.oneWay_add {s s' : PollLists} {clean t p : Nat} {done : List LuaCall}
    (h : LuaState s clean t done) (hway : OneWay s clean (s.polls t pollLvlLua)) (hp : p ≠ clean)
    (ht : (s.cbs p).thread = t) (hrun : threadAddPoll s p pollLvlLua = .ok s') :
    OneWay s' clean (s'.polls t pollLvlLua) := by
  obtain ⟨s₁, hrun₁, -, hcases⟩ := threadAddPoll_ok s p pollLvlLua_lt
  obtain rfl : s₁ = s' := Except.ok.inj (hrun₁.symm.trans hrun)
  rcases hcases with ⟨-, rfl⟩ | ⟨-, rfl⟩
  · exact hway
  · subst ht
    rw [push_polls_self, Function.update_self]
    have hlink : ∀ i, Visits (s.push (s.cbs p).thread p pollLvlLua).pnext (some p) i →
        (s.push (s.cbs p).thread p pollLvlLua).pnext i = some clean →
        (i = p ∧ s.polls (s.cbs p).thread pollLvlLua = some clean) ∨
        (Visits s.pnext (s.polls (s.cbs p).thread pollLvlLua) i ∧ s.pnext i = some clean) := by
      intro i hv hi
      rw [push_pnext] at hv hi
      by_cases hip : i = p
      · rw [hip, Function.update_self] at hi
        exact .inl ⟨hip, hi⟩
      · rw [Function.update_of_ne hip] at hi
        rcases visits_some_iff.1 hv with heq | hv
        · exact absurd heq hip
        · rw [Function.update_self, Function.update_idem] at hv
          exact .inr ⟨hv.mono_cut, hi⟩
    refine .inr ⟨fun heq => hp (Option.some.inj heq), fun i j hvi hvj hi hj => ?_⟩
    rcases hway with ⟨hhead, hno⟩ | ⟨hhead, huniq⟩
    · rcases hlink i hvi hi with ⟨rfl, -⟩ | ⟨hvi, hi⟩
      · rcases hlink j hvj hj with ⟨rfl, -⟩ | ⟨hvj, hj⟩
        · rfl
        · exact absurd hj (hno j hvj)
      · exact absurd hi (hno i hvi)
    · rcases hlink i hvi hi with ⟨-, heq⟩ | ⟨hvi, hi⟩
      · exact absurd heq hhead
      · rcases hlink j hvj hj with ⟨-, heq⟩ | ⟨hvj, hj⟩
        · exact absurd heq hhead
        · exact huniq i j hvi hvj hi hj

theorem LuaState.holding {s : PollLists} {clean t : Nat} {done : List LuaCall}
    (h : LuaState s clean t done) (hheld : LuaHeld s clean t done) :
    Holding s t (done.map (LuaCall.node clean)) := by
  refine ⟨h.known, fun i hi _ => ?_⟩
  obtain ⟨c, hc, rfl⟩ := List.mem_map.1 hi
  exact hheld.queued c hc

theorem LuaState.setClean {s : PollLists} {clean t : Nat} {done : List LuaCall} (r : Nat)
    (h : LuaState s clean t done) : LuaState (s.setClean clean t r) clean t done := by
  refine ⟨h.levels, fun i hi => ?_, fun c hc => ?_⟩
  · have hold : Queued s t i := by
      obtain ⟨lvl, hlvl, hv⟩ := hi
      rw [setClean_pnext] at hv
      exact ⟨lvl, hlvl, hv.mono_cut⟩
    refine ⟨(h.known i hold).1, ?_⟩
    by_cases hic : i = clean
    · rw [hic, setClean_self]
    · rw [setClean_of_ne s hic]
      exact (h.known i hold).2
  · by_cases hnode : c.node clean = clean
    · rw [hnode, setClean_self]
    · rw [setClean_of_ne s hnode]
      exact h.threads c hc

/-- Where `clean_poll` is not queued, writing to it concerns no list. -/
theorem queued_setClean {s : PollLists} {clean t r : Nat} (h : ¬ Queued s t clean) (i : Nat) :
    Queued (s.setClean clean t r) t i ↔ Queued s t i := by
  rw [Queued, setClean_pnext, Queued]
  refine exists_congr fun lvl => and_congr_right fun hlvl => ?_
  exact visits_update_iff_of_not fun hv => h ⟨lvl, hlvl, hv⟩

/-- Nodes other than `clean_poll` that the calls may add, all of the same thread. -/
def OtherPolls (s : PollLists) (clean t : Nat) (cs : List LuaCall) : Prop :=
  ∀ p, .poll p ∈ cs → p ≠ clean ∧ (s.cbs p).thread = t

/-- What a call leaves, safe or not. -/
structure AfterCall (s : PollLists) (clean t : Nat) (c : LuaCall) (done : List LuaCall)
    (s' : PollLists) : Prop where
  run : luaCall clean t s c = .ok s'
  state : LuaState s' clean t (done ++ [c])
  threads : ∀ i, i ≠ clean → (s'.cbs i).thread = (s.cbs i).thread
  data : (s'.cbs clean).data = match c with
    | .cleanup r => r
    | .poll _ => (s.cbs clean).data

theorem LuaState.call {s : PollLists} {clean t : Nat} {done : List LuaCall} {c : LuaCall}
    (h : LuaState s clean t done) (hc : OtherPolls s clean t [c]) :
    ∃ s', AfterCall s clean t c done s' := by
  cases c with
  | poll p =>
      obtain ⟨hp, ht⟩ := hc p (by simp)
      obtain ⟨s', hrun, hthread, -⟩ := threadAddPoll_ok s p pollLvlLua_lt
      exact ⟨s', hrun, h.add (.poll p) ht hrun, fun i _ => hthread i,
        threadAddPoll_data pollLvlLua_lt hrun clean⟩
  | cleanup r =>
      have hset := h.setClean r
      have ht : ((s.setClean clean t r).cbs clean).thread = t := by rw [setClean_self]
      obtain ⟨s', hrun, hthread, -⟩ := threadAddPoll_ok (s.setClean clean t r) clean pollLvlLua_lt
      refine ⟨s', hrun, hset.add (.cleanup r) ht hrun, fun i hi => ?_, ?_⟩
      · rw [hthread, setClean_of_ne s hi]
      · rw [threadAddPoll_data pollLvlLua_lt hrun, setClean_self]

/-- The requests of the calls. -/
def requests (cs : List LuaCall) : List Nat :=
  cs.filterMap fun c => match c with
    | .cleanup r => some r
    | .poll _ => none

theorem mem_requests {cs : List LuaCall} {r : Nat} : r ∈ requests cs ↔ .cleanup r ∈ cs := by
  rw [requests, List.mem_filterMap]
  constructor
  · rintro ⟨c, hc, heq⟩
    cases c with
    | cleanup r' =>
        obtain rfl := Option.some.inj heq
        exact hc
    | poll p => cases heq
  · exact fun h => ⟨_, h, rfl⟩

/-- A call keeps all nodes queued and all requests named exactly when it is safe. -/
theorem AfterCall.held_iff {s s' : PollLists} {clean t : Nat} {done : List LuaCall} {c : LuaCall}
    (ha : AfterCall s clean t c done s') (h : LuaState s clean t done)
    (hheld : LuaHeld s clean t done) (hc : OtherPolls s clean t (done ++ [c]))
    (hdistinct : (requests (done ++ [c])).Nodup) :
    LuaHeld s' clean t (done ++ [c]) ↔ c.Safe clean t s := by
  cases c with
  | poll p =>
      obtain ⟨hp, ht⟩ := hc p (by simp)
      have hiff := (h.holding hheld).add_iff pollLvlLua_lt ha.run
      constructor
      · intro h'
        refine hiff.1 ?_ ht
        have hholding := ha.state.holding h'
        rwa [List.map_append] at hholding
      · intro hsafe
        have hholding := hiff.2 fun _ => hsafe
        refine ⟨fun d hd => ?_, fun r hr => ?_⟩
        · refine hholding.queued _ ?_ (ha.state.threads d hd)
          have hmem := List.mem_map_of_mem (f := LuaCall.node clean) hd
          rwa [List.map_append] at hmem
        · rw [ha.data]
          refine hheld.data r ?_
          simpa using hr
  | cleanup r =>
      constructor
      · intro h' hqueued
        -- a node that was queued is `clean_poll` itself, whose old request would be overwritten
        obtain ⟨d, hd, hnode⟩ := List.mem_map.1 (h.known clean hqueued).1
        cases d with
        | poll p => exact (hc p (List.mem_append_left _ hd)).1 hnode
        | cleanup r' =>
            have hr' := h'.data r' (List.mem_append_left _ hd)
            rw [ha.data] at hr'
            subst hr'
            rw [requests, List.filterMap_append, ← requests, ← requests] at hdistinct
            exact (List.nodup_append.1 hdistinct).2.2 r (mem_requests.2 hd) r (by simp [requests]) rfl
      · intro hsafe
        have hset := h.setClean r
        have hholding : Holding (s.setClean clean t r) t (done.map (LuaCall.node clean)) := by
          refine ⟨hset.known, fun i hi _ => (queued_setClean hsafe i).2 ?_⟩
          obtain ⟨d, hd, rfl⟩ := List.mem_map.1 hi
          exact hheld.queued d hd
        -- `clean_poll` is written whole, so nothing is behind it when it is added
        have hlast : (s.setClean clean t r).pnext clean = none := by
          rw [PollLists.pnext, setClean_self]
        have hadded := (hholding.add_iff pollLvlLua_lt ha.run).2
          fun _ => harmless_of_last pollLvlLua hlast
        refine ⟨fun d hd => ?_, fun r' hr' => ?_⟩
        · refine hadded.queued _ ?_ (ha.state.threads d hd)
          have hmem := List.mem_map_of_mem (f := LuaCall.node clean) hd
          rwa [List.map_append] at hmem
        · rw [ha.data]
          rcases List.mem_append.1 hr' with hr' | hr'
          · exact absurd (hheld.queued _ hr') hsafe
          · simpa using (List.mem_singleton.1 hr').symm

/-- After a safe call still only one way leads to `clean_poll`. -/
theorem AfterCall.oneWay {s s' : PollLists} {clean t : Nat} {done : List LuaCall} {c : LuaCall}
    (ha : AfterCall s clean t c done s') (h : LuaState s clean t done)
    (hway : OneWay s clean (s.polls t pollLvlLua)) (hc : OtherPolls s clean t [c])
    (hsafe : c.Safe clean t s) : OneWay s' clean (s'.polls t pollLvlLua) := by
  cases c with
  | poll p =>
      obtain ⟨hp, ht⟩ := hc p (by simp)
      exact h.oneWay_add hway hp ht ha.run
  | cleanup r =>
      have hhead : s.polls t pollLvlLua ≠ some clean := by
        intro heq
        refine hsafe (h.queued_iff.2 ?_)
        rw [heq]
        exact .here clean
      have hrun : threadAddPoll (s.setClean clean t r) clean pollLvlLua = .ok s' := ha.run
      obtain ⟨s₁, hrun₁, -, hcases⟩ := threadAddPoll_ok (s.setClean clean t r) clean pollLvlLua_lt
      obtain rfl : s₁ = s' := Except.ok.inj (hrun₁.symm.trans hrun)
      rw [setClean_self] at hcases
      rcases hcases with ⟨heq, -⟩ | ⟨-, rfl⟩
      · exact absurd heq hhead
      · rw [push_polls_self, Function.update_self]
        refine .inl ⟨rfl, fun i hv hi => ?_⟩
        rw [push_pnext, setClean_pnext, Function.update_idem] at hv hi
        rcases visits_some_iff.1 hv with rfl | hv
        · rw [Function.update_self] at hi
          exact hhead hi
        · rw [Function.update_self, Function.update_idem] at hv
          have hreach : Visits s.pnext (s.polls t pollLvlLua) i := hv.mono_cut
          by_cases hic : i = clean
          · exact hsafe (h.queued_iff.2 (hic ▸ hreach))
          · rw [Function.update_of_ne hic] at hi
            refine hsafe (h.queued_iff.2 (hreach.trans (.there ?_)))
            rw [hi]
            exact .here clean

/-! ## Sequences of calls -/

theorem doPollHeads_none (fuel : Nat) (s : PollLists) (pheads : List (Option Nat)) :
    doPollHeads fuel s (none :: pheads) = doPollHeads fuel s pheads := by
  rw [doPollHeads, doPollHead_none, ok_bind]
  dsimp only
  cases doPollHeads fuel s pheads <;> rfl

theorem doPollHeads_singleton (fuel : Nat) (s : PollLists) (phead : Option Nat) :
    doPollHeads fuel s [phead] = doPollHead fuel s phead := by
  rw [doPollHeads]
  cases doPollHead fuel s phead with
  | error f => rfl
  | ok r => simp [ok_bind, doPollHeads]

/-- A drain of a thread that uses only the level of Lua is a drain of that list. -/
theorem LuaState.canMainRun_eq {s : PollLists} {clean t : Nat} {done : List LuaCall}
    (h : LuaState s clean t done) (fuel : Nat) :
    canMainRun fuel s t = doPollHead fuel
      { s with polls := Function.update s.polls t fun _ => none } (s.polls t pollLvlLua) := by
  have hheads : (List.range nrPollLvl).map (s.polls t) =
      [none, none, none, none, none, none, s.polls t pollLvlLua] := by
    show [s.polls t 0, s.polls t 1, s.polls t 2, s.polls t 3, s.polls t 4, s.polls t 5,
      s.polls t 6] = _
    rw [h.levels 0 (by decide), h.levels 1 (by decide), h.levels 2 (by decide),
      h.levels 3 (by decide), h.levels 4 (by decide), h.levels 5 (by decide)]
    rfl
  rw [canMainRun, hheads]
  simp only [doPollHeads_none, doPollHeads_singleton]

/-- What the next drain calls: the queued nodes with their data. -/
theorem LuaState.drain {s : PollLists} {clean t : Nat} {done : List LuaCall}
    (h : LuaState s clean t done) :
    ∃ calls s', canMainRun (done.length + 1) s t = .ok (calls, s') ∧
      (∀ i, i ∈ calls.map Prod.fst ↔ Queued s t i) ∧ ∀ c ∈ calls, c.2 = (s.cbs c.1).data := by
  refine canMainRun_spec (done.length + 1) (done.map (LuaCall.node clean)).toFinset
    (fun i hi => List.mem_toFinset.2 (h.known i hi).1) ?_
  have hle := List.toFinset_card_le (done.map (LuaCall.node clean))
  rw [List.length_map] at hle
  exact Nat.lt_succ_of_le hle

theorem LuaState.cleanedUp {s : PollLists} {clean t : Nat} {done : List LuaCall}
    (h : LuaState s clean t done) (hheld : LuaHeld s clean t done)
    (hway : OneWay s clean (s.polls t pollLvlLua)) :
    ∃ calls s', canMainRun (done.length + 1) s t = .ok (calls, s') ∧
      (∀ r, .cleanup r ∈ done → calls.count (clean, r) = 1) ∧
      ∀ p, .poll p ∈ done → p ∈ calls.map Prod.fst := by
  obtain ⟨calls, s', hrun, hcalled, hdata⟩ := h.drain
  refine ⟨calls, s', hrun, fun r hr => ?_, fun p hp => ?_⟩
  · have hle : (calls.map Prod.fst).count clean ≤ 1 := by
      rw [h.canMainRun_eq] at hrun
      have hway' : OneWay { s with polls := Function.update s.polls t fun _ => none } clean
        (s.polls t pollLvlLua) := hway
      exact doPollHead_count_le hway' hrun
    have hmem : (clean, r) ∈ calls := by
      obtain ⟨c, hc, hfst⟩ := List.mem_map.1 ((hcalled clean).2 (hheld.queued _ hr))
      obtain rfl : c = (clean, r) := by
        refine Prod.ext hfst ?_
        rw [hdata c hc, hfst]
        exact hheld.data r hr
      exact hc
    have hpos := List.count_pos_iff.2 hmem
    have hcount : calls.count (clean, r) ≤ (calls.map Prod.fst).count clean :=
      List.count_le_count_map (f := Prod.fst) (x := (clean, r))
    omega
  · exact (hcalled p).2 (hheld.queued _ hp)

theorem LuaState.held {s s' : PollLists} {clean t : Nat} {done : List LuaCall}
    {calls : List (Nat × Nat)} (h : LuaState s clean t done)
    (hrun : canMainRun (done.length + 1) s t = .ok (calls, s'))
    (hcount : ∀ r, .cleanup r ∈ done → calls.count (clean, r) = 1)
    (hall : ∀ p, .poll p ∈ done → p ∈ calls.map Prod.fst) : LuaHeld s clean t done := by
  obtain ⟨calls', s'', hrun', hcalled, hdata⟩ := h.drain
  obtain ⟨rfl, -⟩ := Prod.mk.inj (Except.ok.inj (hrun.symm.trans hrun'))
  have hmem : ∀ r, .cleanup r ∈ done → (clean, r) ∈ calls := fun r hr =>
    List.count_pos_iff.1 (by rw [hcount r hr]; exact Nat.one_pos)
  refine ⟨fun c hc => (hcalled _).1 ?_, fun r hr => (hdata _ (hmem r hr)).symm⟩
  cases c with
  | cleanup r => exact List.mem_map_of_mem (f := Prod.fst) (hmem r hc)
  | poll p => exact hall p hc

theorem luaCalls_cons {s s₁ : PollLists} {clean t : Nat} {c : LuaCall}
    (h : luaCall clean t s c = .ok s₁) (cs : List LuaCall) :
    luaCalls s clean t (c :: cs) = luaCalls s₁ clean t cs := by
  rw [luaCalls, List.foldlM_cons, h, ok_bind, luaCalls]

theorem OtherPolls.after {s s' : PollLists} {clean t : Nat} {cs : List LuaCall}
    (h : OtherPolls s clean t cs)
    (hthread : ∀ i, i ≠ clean → (s'.cbs i).thread = (s.cbs i).thread) :
    OtherPolls s' clean t cs := by
  intro p hp
  refine ⟨(h p hp).1, ?_⟩
  rw [hthread p (h p hp).1]
  exact (h p hp).2

/-- The drain after each prefix of the calls does what it should exactly when each call is safe. -/
theorem cleanedUp_iff_safe {s : PollLists} {clean t : Nat} {done cs : List LuaCall}
    (h : LuaState s clean t done) (hheld : LuaHeld s clean t done)
    (hway : OneWay s clean (s.polls t pollLvlLua)) (hother : OtherPolls s clean t (done ++ cs))
    (hdistinct : (requests (done ++ cs)).Nodup) :
    (∀ pre, pre <+: cs → ∃ s' calls s'', luaCalls s clean t pre = .ok s' ∧
      canMainRun ((done ++ pre).length + 1) s' t = .ok (calls, s'') ∧
      (∀ r, .cleanup r ∈ done ++ pre → calls.count (clean, r) = 1) ∧
      ∀ p, .poll p ∈ done ++ pre → p ∈ calls.map Prod.fst) ↔
    AllSafe clean t s cs := by
  -- on the calls that are left: the drain after the first of them decides whether it was safe
  induction cs generalizing s done with
  | nil =>
      refine iff_of_true (fun pre hpre => ?_) trivial
      obtain rfl := List.prefix_nil.1 hpre
      obtain ⟨calls, s', hcleaned⟩ := h.cleanedUp hheld hway
      exact ⟨s, calls, s', rfl, by simpa using hcleaned⟩
  | cons c cs ih =>
      have hshift : done ++ c :: cs = done ++ [c] ++ cs := by simp
      rw [hshift] at hother hdistinct
      have hfirst : OtherPolls s clean t (done ++ [c]) := fun p hp =>
        hother p (List.mem_append_left _ hp)
      have hsingle : OtherPolls s clean t [c] := fun p hp =>
        hfirst p (List.mem_append_right _ hp)
      have hdistinct' : (requests (done ++ [c])).Nodup := by
        rw [requests, List.filterMap_append] at hdistinct
        exact (List.nodup_append.1 hdistinct).1
      obtain ⟨s₁, ha⟩ := h.call hsingle
      have hiff := ha.held_iff h hheld hfirst hdistinct'
      have hother₁ := hother.after ha.threads
      have hmove : ∀ pre : List LuaCall, done ++ c :: pre = done ++ [c] ++ pre := by simp
      constructor
      · intro hall
        -- the drain right after the first call shows what the lists hold then
        have hheld₁ : LuaHeld s₁ clean t (done ++ [c]) := by
          obtain ⟨s', calls, s'', hs', hrun, hcount, hcalled⟩ := hall [c] (by simp)
          rw [luaCalls_cons ha.run] at hs'
          obtain rfl : s₁ = s' := Except.ok.inj hs'
          exact ha.state.held hrun hcount hcalled
        have hsafe := hiff.1 hheld₁
        refine ⟨hsafe, fun s' hs' => ?_⟩
        obtain rfl : s₁ = s' := Except.ok.inj (ha.run.symm.trans hs')
        have hway₁ := ha.oneWay h hway hsingle hsafe
        refine (ih ha.state hheld₁ hway₁ hother₁ hdistinct).1 fun pre hpre => ?_
        obtain ⟨s', calls, s'', hs', hrest⟩ := hall (c :: pre) (List.cons_prefix_cons.2 ⟨rfl, hpre⟩)
        rw [luaCalls_cons ha.run] at hs'
        rw [hmove pre] at hrest
        exact ⟨s', calls, s'', hs', hrest⟩
      · rintro ⟨hsafe, hrest⟩ pre hpre
        cases pre with
        | nil =>
            obtain ⟨calls, s', hcleaned⟩ := h.cleanedUp hheld hway
            exact ⟨s, calls, s', rfl, by simpa using hcleaned⟩
        | cons d pre =>
            obtain ⟨rfl, hpre'⟩ := List.cons_prefix_cons.1 hpre
            have hway₁ := ha.oneWay h hway hsingle hsafe
            obtain ⟨s', calls, s'', hs', hcleaned⟩ :=
              (ih ha.state (hiff.2 hsafe) hway₁ hother₁ hdistinct).2 (hrest s₁ ha.run) pre hpre'
            refine ⟨s', calls, s'', ?_, ?_⟩
            · rw [luaCalls_cons ha.run]
              exact hs'
            · rw [hmove pre]
              exact hcleaned

/-- From a drained thread on, every drain cleans up each request once and calls the other nodes
    exactly when no cleanup finds `clean_poll` queued and every other addition is harmless. -/
theorem http_cleanup_iff (s : PollLists) (clean t : Nat) (cs : List LuaCall)
    (hdrained : ∀ lvl, s.polls t lvl = none) (hother : OtherPolls s clean t cs)
    (hdistinct : (requests cs).Nodup) :
    (∀ pre, pre <+: cs → CleanedUp s clean t pre) ↔ AllSafe clean t s cs := by
  have hnone := not_queued_of_drained hdrained
  have hstate : LuaState s clean t [] :=
    ⟨fun lvl _ => hdrained lvl, fun i hi => absurd hi (hnone i), fun c hc => by cases hc⟩
  have hheld : LuaHeld s clean t [] :=
    ⟨fun c hc => absurd hc (by simp), fun r hr => absurd hr (by simp)⟩
  have hway : OneWay s clean (s.polls t pollLvlLua) := by
    rw [hdrained]
    exact .inr ⟨by simp, fun i j hv => by cases hv⟩
  exact cleanedUp_iff_safe hstate hheld hway hother hdistinct

/-- One cleanup between two additions of another node. -/
theorem http_cleanup_single : CleanedUp freshPolls 0 0 [.poll 1, .cleanup 40, .poll 1] := by
  have hother : OtherPolls freshPolls 0 0 [.poll 1, .cleanup 40, .poll 1] := by
    intro p hp
    obtain rfl : p = 1 := by simpa using hp
    exact ⟨by decide, rfl⟩
  refine (http_cleanup_iff freshPolls 0 0 _ (fun _ => rfl) hother (by decide)).2
    ⟨harmless_of_last pollLvlLua rfl, fun s₁ h₁ => ?_⟩ _ List.prefix_rfl
  obtain rfl := Except.ok.inj h₁
  refine ⟨?_, fun s₂ h₂ => ?_⟩
  · rintro ⟨lvl, -, hv⟩
    by_cases hlvl : lvl = pollLvlLua
    · subst hlvl
      have hv : Visits (freshPolls.push 0 1 pollLvlLua).pnext (some 1) 0 := hv
      refine not_visits_of_no_link (by decide) (fun i _ => ?_) hv
      rw [push_pnext]
      by_cases hi : i = 1 <;> simp [hi, freshPolls, PollLists.pnext]
    · have hv : Visits (freshPolls.push 0 1 pollLvlLua).pnext
        ((freshPolls.push 0 1 pollLvlLua).polls 0 lvl) 0 := hv
      rw [push_polls_self, Function.update_of_ne hlvl] at hv
      cases hv
  · obtain rfl := Except.ok.inj h₂
    exact ⟨harmless_of_last pollLvlLua rfl, fun _ _ => trivial⟩

/-- Two requests end before the drain: the pool of the second is destroyed twice, that of the first
    never, and the node queued at first is lost. -/
theorem http_cleanup_overwritten :
    ¬ CleanedUp freshPolls 0 0 [.poll 1, .cleanup 40, .poll 2, .cleanup 41] := by
  rintro ⟨s', calls, s'', hcalls, hrun, hcount, -⟩
  have hrun' : canMainRun 5 s' 0 = .ok (calls, s'') := hrun
  have heq : ((luaCalls freshPolls 0 0 [.poll 1, .cleanup 40, .poll 2, .cleanup 41]).bind fun s' =>
      (canMainRun 5 s' 0).map Prod.fst) = .ok [(0, 41), (2, 0), (0, 41)] := by rfl
  rw [hcalls] at heq
  simp only [Except.bind, hrun', Except.map] at heq
  have hone := hcount 40 (by simp)
  rw [Except.ok.inj heq] at hone
  exact absurd hone (by decide)

end Yaos
