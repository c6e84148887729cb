import Mathlib.Data.List.Nodup
import Mathlib.Data.List.Range
import Mathlib.Logic.Function.Basic

set_option autoImplicit false

/-! # Loading the modules (`kernel/module.c`)

Each module has a handler, and loading it is a call of the handler, which may ask to be called again in
the next loop. `init_module` loads the modules on the CPU that boots and `init_module_ap` on each other
one; both go through all modules once and then again, at most nine times, as long as one has asked. -/

namespace Yaos.Module

/-- An entry of the section of module data. A null pointer is `none`. -/
structure ModuleData where
  name : Option String
  evhand : Option Nat

/-- The module has a name and an event handler. -/
def ModuleData.usable (p : ModuleData) : Bool := p.name.isSome && p.evhand.isSome

/-- `MOD_ERR_OK`: the module is loaded. -/
def modErrOk : Int := 0

/-- `MOD_ERR_NEXTLOOP`: the module is to be called again. -/
def modErrNextLoop : Int := -1

/-- `MAX_MODULE_NR`. -/
def maxModuleNr : Nat := 0x100

/-- A call of the handler of module `id`. -/
structure Call where
  round : Nat
  id : Nat
  ret : Int
deriving DecidableEq

/-- What a module answers, after the calls so far. -/
abbrev Answers := List Call → Nat → Int

/-- What the loops know, with the calls so far. -/
structure Loading where
  /-- `MODULE_LOADED`, in `all[i].status` or in `pstatus[i]`. -/
  status : Nat → Bool
  found : Bool
  log : List Call

/-- A module is called in round `r`. -/
def Loading.load (s : Loading) (answer : Answers) (r i : Nat) : Loading :=
  let ret := answer s.log i
  { status := if ret = modErrOk then Function.update s.status i true else s.status
    found := s.found || decide (ret = modErrNextLoop)
    log := s.log ++ [{ round := r, id := i, ret := ret }] }

/-- One pass over all modules, which loads those that are picked. -/
def round (answer : Answers) (pick : Loading → Nat → Bool) (r : Nat) (is : List Nat) (s : Loading) : Loading :=
  is.foldl (fun s i => if pick s i then s.load answer r i else s) s

/-- `while (found && --times)`, after `n` rounds at most. -/
def rounds (answer : Answers) (pick : Loading → Nat → Bool) (is : List Nat) (s : Loading) : Nat → Loading
  | 0 => s
  | n + 1 =>
      let s := rounds answer pick is s n
      if s.found then round answer pick (n + 1) is { s with found := false } else s

/-- Before the first call. -/
def start : Loading where
  status _ := false
  found := false
  log := []

/-- `all` has room for `MAX_MODULE_NR` modules, and nothing is said about what lies behind it. -/
def initModule (answer : Answers) (data : List ModuleData) : Option Loading :=
  let total := (data.filter ModuleData.usable).length
  if maxModuleNr < total then none
  else
    let s := round answer (fun _ _ => true) 0 (List.range total) start
    some (rounds answer (fun s i => s.status i) (List.range total) s 9)

/-- `bp i` says that the CPU that boots has loaded module `i`. -/
def apPick (bp : Nat → Bool) (s : Loading) (i : Nat) : Bool := bp i && !s.status i

/-- `init_module_ap`. -/
def initModuleAp (answer : Answers) (total : Nat) (bp : Nat → Bool) : Loading :=
  let s := round answer (apPick bp) 0 (List.range total) start
  rounds answer (apPick bp) (List.range total) s 9

/-! ## What it is for -/

/-- The last answer of a module. -/
def last (log : List Call) (i : Nat) : Option Int :=
  log.foldl (fun ret c => if c.id = i then some c.ret else ret) none

/-- The calls of the rounds before `r`. -/
def before (log : List Call) (r : Nat) : List Call := log.filter fun c => decide (c.round < r)

/-- The module was called in round `r`. -/
def Called (log : List Call) (r i : Nat) : Prop := ∃ c ∈ log, c.round = r ∧ c.id = i

/-- The modules that are due are called once; in each of the nine retry rounds those are called again
    whose last answer asked for it; and those are loaded whose last answer was OK. -/
structure Loading.Retried (s : Loading) (due : Nat → Prop) : Prop where
  first : ∀ i, Called s.log 0 i ↔ due i
  again : ∀ r, 1 ≤ r → r ≤ 9 → ∀ i, Called s.log r i ↔ last (before s.log r) i = some modErrNextLoop
  rounds : ∀ c ∈ s.log, c.round ≤ 9
  once : ∀ r, ((s.log.filter fun c => decide (c.round = r)).map Call.id).Nodup
  loaded : ∀ i, s.status i = true ↔ last s.log i = some modErrOk

/-- The loop as it is meant: the modules that asked for it are called again. -/
def asking (s : Loading) (i : Nat) : Bool := decide (last s.log i = some modErrNextLoop)

/-- The state after `n` retry rounds that call the modules that asked. -/
def intended (answer : Answers) (total : Nat) (bp : Nat → Bool) (n : Nat) : Loading :=
  rounds answer asking (List.range total) (round answer (fun _ i => bp i) 0 (List.range total) start) n

/-! ## The log -/

section Log

variable {log l : List Call} {c : Call} {r i : Nat}

theorem last_append : last (log ++ l) i =
    l.foldl (fun ret c => if c.id = i then some c.ret else ret) (last log i) := by
  rw [last, List.foldl_append, last]

theorem last_concat : last (log ++ [c]) i = if c.id = i then some c.ret else last log i := by
  rw [last_append, List.foldl_cons, List.foldl_nil]

/-- The calls of other modules do not count. -/
theorem last_append_of_notMem (h : i ∉ l.map Call.id) : last (log ++ l) i = last log i := by
  induction l generalizing log with
  | nil => rw [List.append_nil]
  | cons c l ih =>
      rw [List.map_cons, List.mem_cons, not_or] at h
      have hmove : log ++ c :: l = log ++ [c] ++ l := by simp
      rw [hmove, ih h.2, last_concat, if_neg (Ne.symm h.1)]

/-- A module that is called once has answered what it answers there. -/
theorem last_append_of_mem (hl : (l.map Call.id).Nodup) (hc : c ∈ l) :
    last (log ++ l) c.id = some c.ret := by
  induction l generalizing log with
  | nil => cases hc
  | cons c' l ih =>
      rw [List.map_cons, List.nodup_cons] at hl
      have hmove : log ++ c' :: l = log ++ [c'] ++ l := by simp
      rw [hmove]
      rcases List.mem_cons.1 hc with rfl | hc
      · rw [last_append_of_notMem hl.1, last_concat, if_pos rfl]
      · exact ih hl.2 hc

theorem last_mem {ret : Int} (h : last log i = some ret) : ∃ c ∈ log, c.id = i ∧ c.ret = ret := by
  induction log using List.reverseRecOn with
  | nil => simp [last] at h
  | append_singleton log c ih =>
      rw [last_concat] at h
      by_cases hi : c.id = i
      · rw [if_pos hi] at h
        exact ⟨c, by simp, hi, Option.some.inj h⟩
      · rw [if_neg hi] at h
        obtain ⟨c', hc', hc⟩ := ih h
        exact ⟨c', List.mem_append_left _ hc', hc⟩

theorem last_ne_none (hc : c ∈ log) : last log c.id ≠ none := by
  induction log using List.reverseRecOn with
  | nil => cases hc
  | append_singleton log c' ih =>
      rw [last_concat]
      by_cases hi : c'.id = c.id
      · simp [hi]
      · rw [if_neg hi]
        rcases List.mem_append.1 hc with hc | hc
        · exact ih hc
        · exact absurd (congrArg Call.id (List.mem_singleton.1 hc)).symm hi

end Log

/-! ## One pass -/

/-- What a pass from `s` to `s'` does: it calls the modules `ids` in this order. -/
structure Pass (r : Nat) (s s' : Loading) (ids : List Nat) (l : List Call) : Prop where
  log : s'.log = s.log ++ l
  round : ∀ c ∈ l, c.round = r
  ids : l.map Call.id = ids
  status : ∀ i, s'.status i = true ↔ s.status i = true ∨ ∃ c ∈ l, c.id = i ∧ c.ret = modErrOk
  found : s'.found = true ↔ s.found = true ∨ ∃ c ∈ l, c.ret = modErrNextLoop

/-- Whether a module is picked does not depend on the other modules. -/
def Local (pick : Loading → Nat → Bool) : Prop :=
  ∀ s s' i, s.status i = s'.status i → last s.log i = last s'.log i → pick s i = pick s' i

theorem local_status : Local fun s i => s.status i := fun _ _ _ h _ => h

theorem local_apPick {bp : Nat → Bool} : Local (apPick bp) := fun s s' i h _ => by
  rw [apPick, apPick, h]

theorem local_asking : Local asking := fun s s' i _ h => by
  rw [asking, asking, h]

section Pass

variable {answer : Answers} {pick : Loading → Nat → Bool} {r : Nat} {is : List Nat} {s : Loading}

theorem Pass.nil : Pass r s s [] [] where
  log := (List.append_nil _).symm
  round c hc := by cases hc
  ids := rfl
  status i := by simp
  found := by simp

theorem Pass.load {s' : Loading} {i : Nat} {ids : List Nat} {l : List Call}
    (h : Pass r (s.load answer r i) s' ids l) :
    Pass r s s' (i :: ids) ({ round := r, id := i, ret := answer s.log i } :: l) where
  log := by simp [h.log, Loading.load]
  round c hc := by
    rcases List.mem_cons.1 hc with rfl | hc
    · rfl
    · exact h.round c hc
  ids := by rw [List.map_cons, h.ids]
  status j := by
    rw [h.status, Loading.load]
    by_cases hok : answer s.log i = modErrOk
    · by_cases hj : j = i
      · simp [hok, hj]
      · simp [hok, hj, Ne.symm hj]
    · simp [hok]
  found := by
    rw [h.found, Loading.load]
    simp [or_assoc]

/-- The call of one module does not change what is said of another one. -/
theorem load_other {i j : Nat} (h : j ≠ i) : (s.load answer r i).status j = s.status j ∧
    last (s.load answer r i).log j = last s.log j := by
  constructor
  · by_cases hok : answer s.log i = modErrOk
    · simp [Loading.load, hok, h]
    · simp [Loading.load, hok]
  · rw [Loading.load, last_concat, if_neg (Ne.symm h)]

theorem round_pass (answer : Answers) (r : Nat) (s : Loading) (hpick : Local pick) (his : is.Nodup) :
    ∃ l, Pass r s (round answer pick r is s) (is.filter (pick s)) l := by
  induction is generalizing s with
  | nil => exact ⟨[], Pass.nil⟩
  | cons i is ih =>
      rw [List.nodup_cons] at his
      rw [round, List.foldl_cons]
      by_cases hi : pick s i = true
      · obtain ⟨l, hl⟩ := ih (s.load answer r i) his.2
        -- the modules behind `i` are other ones, so the same of them are picked
        have hsame : is.filter (pick (s.load answer r i)) = is.filter (pick s) := by
          refine List.filter_congr fun j hj => ?_
          have hne : j ≠ i := fun he => his.1 (he ▸ hj)
          exact hpick _ _ j (load_other hne).1 (load_other hne).2
        rw [hsame] at hl
        rw [if_pos hi, List.filter_cons_of_pos hi]
        exact ⟨_, hl.load⟩
      · rw [if_neg hi, List.filter_cons_of_neg hi]
        exact ih s his.2

end Pass

/-! ## The rounds that are meant -/

section Rounds

variable {answer : Answers} {r n : Nat} {s s' : Loading} {l : List Call} {is : List Nat}

theorem called_append {log : List Call} {q i : Nat} :
    Called (log ++ l) q i ↔ Called log q i ∨ Called l q i := by
  simp [Called, or_and_right, exists_or]

theorem called_round {q i : Nat} (hl : ∀ c ∈ l, c.round = r) :
    Called l q i ↔ q = r ∧ i ∈ l.map Call.id := by
  constructor
  · rintro ⟨c, hc, rfl, rfl⟩
    exact ⟨hl c hc, List.mem_map_of_mem hc⟩
  · rintro ⟨rfl, hi⟩
    obtain ⟨c, hc, rfl⟩ := List.mem_map.1 hi
    exact ⟨c, hc, hl c hc, rfl⟩

theorem before_append {log : List Call} {q : Nat} (hl : ∀ c ∈ l, c.round = r) (hq : q ≤ r) :
    before (log ++ l) q = before log q := by
  rw [before, List.filter_append]
  have hnil : l.filter (fun c => decide (c.round < q)) = [] := by
    refine List.filter_eq_nil_iff.2 fun c hc => ?_
    simp [hl c hc, hq]
  rw [hnil, List.append_nil, before]

theorem before_eq_self {log : List Call} (h : ∀ c ∈ log, c.round < r) : before log r = log :=
  List.filter_eq_self.2 fun c hc => by simpa using h c hc

/-- What is true after `n` rounds. -/
structure Loading.Tracked (s : Loading) (n : Nat) (is : List Nat) (due : Nat → Prop) : Prop where
  rounds : ∀ c ∈ s.log, c.round ≤ n
  member : ∀ c ∈ s.log, c.id ∈ is ∧ due c.id
  first : ∀ i, Called s.log 0 i ↔ due i
  again : ∀ r, 1 ≤ r → r ≤ n → ∀ i, Called s.log r i ↔ last (before s.log r) i = some modErrNextLoop
  once : ∀ r, ((s.log.filter fun c => decide (c.round = r)).map Call.id).Nodup
  loaded : ∀ i, s.status i = true ↔ last s.log i = some modErrOk
  found : s.found = true ↔ ∃ i, last s.log i = some modErrNextLoop

/-- Where the modules of a pass were not loaded, the status says after it as well who is. -/
theorem Pass.loaded {ids : List Nat} (h : Pass r s s' ids l) (hids : ids.Nodup)
    (hnew : ∀ i ∈ ids, s.status i = false)
    (hs : ∀ i, s.status i = true ↔ last s.log i = some modErrOk) (i : Nat) :
    s'.status i = true ↔ last s'.log i = some modErrOk := by
  rw [h.status, h.log]
  by_cases hi : i ∈ ids
  · have hmem := hi
    rw [← h.ids] at hmem hids
    obtain ⟨c, hc, rfl⟩ := List.mem_map.1 hmem
    rw [last_append_of_mem hids hc, hnew _ hi, Option.some.injEq]
    constructor
    · rintro (hno | ⟨c', hc', hid, hret⟩)
      · cases hno
      · rw [← List.inj_on_of_nodup_map hids hc' hc hid, hret]
    · exact fun hret => .inr ⟨c, hc, rfl, hret⟩
  · have hmem := hi
    rw [← h.ids] at hmem
    rw [last_append_of_notMem hmem, ← hs i, or_iff_left]
    rintro ⟨c, hc, rfl, -⟩
    exact hmem (List.mem_map_of_mem hc)

theorem Pass.once {ids : List Nat} (h : Pass r s s' ids l) (hids : ids.Nodup)
    (hlog : ∀ c ∈ s.log, c.round < r)
    (hs : ∀ q, ((s.log.filter fun c => decide (c.round = q)).map Call.id).Nodup) (q : Nat) :
    ((s'.log.filter fun c => decide (c.round = q)).map Call.id).Nodup := by
  rw [h.log, List.filter_append, List.map_append]
  by_cases hq : q = r
  · have hold : s.log.filter (fun c => decide (c.round = q)) = [] := by
      refine List.filter_eq_nil_iff.2 fun c hc => ?_
      have := hlog c hc
      simp only [decide_eq_true_eq]
      omega
    have hnew : l.filter (fun c => decide (c.round = q)) = l :=
      List.filter_eq_self.2 fun c hc => by simp [h.round c hc, hq]
    rw [hold, hnew, List.map_nil, List.nil_append, h.ids]
    exact hids
  · have hnew : l.filter (fun c => decide (c.round = q)) = [] := by
      refine List.filter_eq_nil_iff.2 fun c hc => ?_
      simpa [h.round c hc] using Ne.symm hq
    rw [hnew, List.map_nil, List.append_nil]
    exact hs q

/-- The first pass. -/
theorem Pass.first {due : Nat → Bool} (his : is.Nodup) (h : Pass 0 start s' (is.filter due) l) :
    s'.Tracked 0 is fun i => i ∈ is ∧ due i = true := by
  have hlog : s'.log = l := by rw [h.log, start, List.nil_append]
  have hmem : ∀ i, i ∈ l.map Call.id ↔ i ∈ is ∧ due i = true := by
    intro i
    rw [h.ids, List.mem_filter]
  refine ⟨fun c hc => ?_, fun c hc => ?_, fun i => ?_, fun r h1 h0 => ?_, h.once (his.filter _) ?_ ?_,
    h.loaded (his.filter _) ?_ ?_, ?_⟩
  · rw [hlog] at hc
    exact Nat.le_of_eq (h.round c hc)
  · rw [hlog] at hc
    have hd := (hmem _).1 (List.mem_map_of_mem hc)
    exact ⟨hd.1, hd⟩
  · rw [hlog, called_round h.round, and_iff_right rfl, hmem]
  · omega
  · intro c hc
    cases hc
  · intro r
    exact List.nodup_nil
  · intro i hi
    rfl
  · intro i
    simp [start, last]
  · rw [h.found, hlog]
    constructor
    · rintro (hno | ⟨c, hc, hret⟩)
      · cases hno
      · have hl : (l.map Call.id).Nodup := by
          rw [h.ids]
          exact his.filter _
        exact ⟨c.id, by rw [← List.nil_append l, last_append_of_mem hl hc, hret]⟩
    · rintro ⟨i, hi⟩
      obtain ⟨c, hc, -, hret⟩ := last_mem hi
      exact .inr ⟨c, hc, hret⟩

/-- A round in which exactly the modules that asked are called. -/
theorem Loading.Tracked.round {due : Nat → Prop} {ids : List Nat} (h : s.Tracked n is due)
    (hids : ids.Nodup) (hasked : ∀ i, i ∈ ids ↔ last s.log i = some modErrNextLoop)
    (hpass : Pass (n + 1) { s with found := false } s' ids l) : s'.Tracked (n + 1) is due := by
  have hbelow : ∀ c ∈ s.log, c.round < n + 1 := fun c hc => Nat.lt_succ_of_le (h.rounds c hc)
  have hlog : s'.log = s.log ++ l := hpass.log
  have hl : (l.map Call.id).Nodup := by rwa [hpass.ids]
  have hmem : ∀ c ∈ l, c.id ∈ ids := fun c hc => by
    rw [← hpass.ids]
    exact List.mem_map_of_mem hc
  have hwas : ∀ i ∈ ids, i ∈ is ∧ due i := by
    intro i hi
    obtain ⟨c, hc, rfl, -⟩ := last_mem ((hasked i).1 hi)
    exact h.member c hc
  refine ⟨fun c hc => ?_, fun c hc => ?_, fun i => ?_, fun r h1 hr i => ?_,
    hpass.once hids hbelow h.once, hpass.loaded hids (fun i hi => ?_) h.loaded, ?_⟩
  · rw [hlog] at hc
    rcases List.mem_append.1 hc with hc | hc
    · exact Nat.le_succ_of_le (h.rounds c hc)
    · exact Nat.le_of_eq (hpass.round c hc)
  · rw [hlog] at hc
    rcases List.mem_append.1 hc with hc | hc
    · exact h.member c hc
    · exact hwas _ (hmem c hc)
  · rw [hlog, called_append, called_round hpass.round, h.first i]
    simp
  · rw [hlog, called_append, called_round hpass.round, before_append hpass.round hr, hpass.ids]
    by_cases hrn : r = n + 1
    · subst hrn
      rw [before_eq_self hbelow, ← hasked i, and_iff_right rfl, or_iff_right]
      rintro ⟨c, hc, hround, -⟩
      exact absurd hround (Nat.ne_of_lt (hbelow c hc))
    · rw [h.again r h1 (by omega), or_iff_left]
      exact fun hno => hrn hno.1
  · -- a module that asked is not loaded
    refine Bool.eq_false_iff.2 fun hstatus => ?_
    have hok := (h.loaded i).1 hstatus
    rw [(hasked i).1 hi] at hok
    exact absurd hok (by decide)
  · rw [hpass.found, hlog]
    constructor
    · rintro (hno | ⟨c, hc, hret⟩)
      · cases hno
      · exact ⟨c.id, by rw [last_append_of_mem hl hc, hret]⟩
    · rintro ⟨i, hi⟩
      by_cases hin : i ∈ l.map Call.id
      · obtain ⟨c, hc, rfl⟩ := List.mem_map.1 hin
        rw [last_append_of_mem hl hc] at hi
        exact .inr ⟨c, hc, Option.some.inj hi⟩
      · rw [last_append_of_notMem hin] at hi
        rw [hpass.ids] at hin
        exact absurd ((hasked i).2 hi) hin

/-- A round that does not take place since no module has asked. -/
theorem Loading.Tracked.still {due : Nat → Prop} (h : s.Tracked n is due) (hfound : s.found = false) :
    s.Tracked (n + 1) is due := by
  refine ⟨fun c hc => Nat.le_succ_of_le (h.rounds c hc), h.member, h.first, fun r h1 hr i => ?_, h.once,
    h.loaded, h.found⟩
  have hbelow : ∀ c ∈ s.log, c.round < n + 1 := fun c hc => Nat.lt_succ_of_le (h.rounds c hc)
  by_cases hrn : r = n + 1
  · subst hrn
    rw [before_eq_self hbelow]
    refine iff_of_false ?_ fun hask => ?_
    · rintro ⟨c, hc, hround, -⟩
      exact absurd hround (Nat.ne_of_lt (hbelow c hc))
    · have hyes := h.found.2 ⟨i, hask⟩
      rw [hfound] at hyes
      cases hyes
  · exact h.again r h1 (by omega) i

theorem rounds_succ {pick : Loading → Nat → Bool} :
    rounds answer pick is s (n + 1) = if (rounds answer pick is s n).found then
      Module.round answer pick (n + 1) is { rounds answer pick is s n with found := false }
    else rounds answer pick is s n := rfl

theorem intended_succ {total : Nat} {bp : Nat → Bool} :
    intended answer total bp (n + 1) = if (intended answer total bp n).found then
      Module.round answer asking (n + 1) (List.range total)
        { intended answer total bp n with found := false }
    else intended answer total bp n := rfl

theorem Loading.Tracked.retried {due : Nat → Prop} (h : s.Tracked 9 is due) : s.Retried due :=
  ⟨h.first, h.again, h.rounds, h.once, h.loaded⟩

/-- The rounds as they are meant do what they are for. -/
theorem intended_tracked {total : Nat} {bp : Nat → Bool} (n : Nat) :
    (intended answer total bp n).Tracked n (List.range total) fun i => i ∈ List.range total ∧ bp i = true := by
  induction n with
  | zero =>
      obtain ⟨l, hl⟩ := round_pass answer 0 start (show Local fun _ i => bp i from fun _ _ _ _ _ => rfl)
        (List.nodup_range (n := total))
      exact hl.first List.nodup_range
  | succ n ih =>
      rw [intended_succ]
      generalize intended answer total bp n = s at ih ⊢
      split
      case isTrue hfound =>
          obtain ⟨l, hl⟩ := round_pass answer (n + 1) { s with found := false } local_asking
            (List.nodup_range (n := total))
          refine ih.round (List.nodup_range.filter _) (fun i => ?_) hl
          rw [List.mem_filter, asking, decide_eq_true_eq]
          refine and_iff_right_of_imp fun hask => ?_
          obtain ⟨c, hc, rfl, -⟩ := last_mem hask
          exact (ih.member c hc).1
      case isFalse hfound => exact ih.still (by simpa using hfound)

end Rounds

/-! ## The two copies of the loop -/

section Code

variable {answer : Answers} {pick pick' : Loading → Nat → Bool} {r n m : Nat} {s : Loading} {is : List Nat}

/-- Passes that pick the same modules when they begin are the same. -/
theorem round_eq (hpick : Local pick) (hpick' : Local pick') (his : is.Nodup)
    (h : ∀ i ∈ is, pick s i = pick' s i) : round answer pick r is s = round answer pick' r is s := by
  induction is generalizing s with
  | nil => rfl
  | cons i is ih =>
      rw [List.nodup_cons] at his
      simp only [round, List.foldl_cons]
      rw [h i List.mem_cons_self]
      by_cases hi : pick' s i = true
      · rw [if_pos hi]
        refine ih his.2 fun j hj => ?_
        have hne : j ≠ i := fun he => his.1 (he ▸ hj)
        obtain ⟨hstatus, hlast⟩ : (s.load answer r i).status j = s.status j ∧
          last (s.load answer r i).log j = last s.log j := load_other hne
        rw [hpick _ s j hstatus hlast, hpick' _ s j hstatus hlast]
        exact h j (List.mem_cons_of_mem _ hj)
      · rw [if_neg hi]
        exact ih his.2 fun j hj => h j (List.mem_cons_of_mem _ hj)

theorem rounds_still (h : s.found = false) (n : Nat) : rounds answer pick is s n = s := by
  induction n with
  | zero => rfl
  | succ n ih =>
      rw [rounds_succ, ih]
      simp [h]

/-- Later rounds only add calls, of later rounds. -/
theorem rounds_log (hpick : Local pick) (his : is.Nodup) (hnm : n ≤ m) :
    ∃ l, (rounds answer pick is s m).log = (rounds answer pick is s n).log ++ l ∧
      ∀ c ∈ l, n < c.round := by
  induction m with
  | zero =>
      obtain rfl := Nat.le_zero.1 hnm
      exact ⟨[], (List.append_nil _).symm, fun c hc => by cases hc⟩
  | succ m ih =>
      by_cases he : n = m + 1
      · exact ⟨[], by rw [he, List.append_nil], fun c hc => by cases hc⟩
      · obtain ⟨l, hlog, hl⟩ := ih (by omega)
        rw [rounds_succ]
        split
        case isTrue =>
            obtain ⟨l', hl'⟩ := round_pass answer (m + 1) { rounds answer pick is s m with found := false } hpick his
            refine ⟨l ++ l', by rw [hl'.log, hlog, List.append_assoc], fun c hc => ?_⟩
            rcases List.mem_append.1 hc with hc | hc
            · exact hl c hc
            · rw [hl'.round c hc]
              omega
        case isFalse => exact ⟨l, hlog, hl⟩

/-- A run that does what it is for picks the modules that asked in each round that takes place. -/
theorem retried_picks {due : Nat → Prop} (hpick : Local pick) (his : is.Nodup)
    (h : (rounds answer pick is s 9).Retried due) (hn : n < 9)
    (hfound : (rounds answer pick is s n).found = true)
    (hlog : ∀ c ∈ (rounds answer pick is s n).log, c.round ≤ n) (i : Nat) :
    i ∈ is ∧ pick (rounds answer pick is s n) i = true ↔
      last (rounds answer pick is s n).log i = some modErrNextLoop := by
  -- of the whole log, what round `n + 1` called is the part between the rounds before and after it
  obtain ⟨l', hl', hlate⟩ : ∃ l, (rounds answer pick is s 9).log = (rounds answer pick is s (n + 1)).log ++ l ∧
      ∀ c ∈ l, n + 1 < c.round := rounds_log hpick his (by omega)
  rw [rounds_succ (n := n), if_pos hfound] at hl'
  generalize rounds answer pick is s n = s₁ at hl' hlog ⊢
  obtain ⟨l, hl⟩ := round_pass answer (n + 1) { s₁ with found := false } hpick his
  rw [hl.log] at hl'
  have hagain := h.again (n + 1) (by omega) (by omega) i
  rw [hl', called_append, called_append, called_round hl.round, hl.ids, and_iff_right rfl, List.mem_filter,
    before, List.filter_append, ← before, before_append hl.round (Nat.le_refl _),
    before_eq_self fun c hc => Nat.lt_succ_of_le (hlog c hc)] at hagain
  have hlater : l'.filter (fun c => decide (c.round < n + 1)) = [] := by
    refine List.filter_eq_nil_iff.2 fun c hc => ?_
    have := hlate c hc
    simp only [decide_eq_true_eq]
    omega
  have hold : ¬ Called s₁.log (n + 1) i := by
    rintro ⟨c, hc, hround, -⟩
    have := hlog c hc
    omega
  have hnew : ¬ Called l' (n + 1) i := by
    rintro ⟨c, hc, hround, -⟩
    have := hlate c hc
    omega
  rw [hlater, List.append_nil, or_iff_left hnew, or_iff_right hold] at hagain
  rw [← hagain, hpick s₁ { s₁ with found := false } i rfl rfl]

theorem Loading.Tracked.last_first {due : Nat → Prop} (h : s.Tracked 0 is due) {c : Call} (hc : c ∈ s.log) :
    last s.log c.id = some c.ret := by
  have hall : s.log.filter (fun c => decide (c.round = 0)) = s.log :=
    List.filter_eq_self.2 fun c hc => by simpa using Nat.le_zero.1 (h.rounds c hc)
  have honce := h.once 0
  rw [hall] at honce
  have hlast : last ([] ++ s.log) c.id = some c.ret := last_append_of_mem honce hc
  rwa [List.nil_append] at hlast

/-- On the CPU that boots the retry rounds call the modules that are loaded. -/
theorem initModule_retried_iff (data : List ModuleData) :
    (∃ s, initModule answer data = some s ∧ s.Retried fun i => i < (data.filter ModuleData.usable).length) ↔
      (data.filter ModuleData.usable).length ≤ maxModuleNr ∧
        ∀ c ∈ (intended answer (data.filter ModuleData.usable).length (fun _ => true) 0).log,
          c.ret ≠ modErrNextLoop := by
  rw [initModule]
  generalize (data.filter ModuleData.usable).length = total
  have htracked := @intended_tracked answer total fun _ => true
  simp only [List.mem_range, and_true] at htracked
  have hfirst : round answer (fun _ _ => true) 0 (List.range total) start =
    intended answer total (fun _ => true) 0 := rfl
  dsimp only
  rw [hfirst]
  by_cases hroom : maxModuleNr < total
  · refine iff_of_false ?_ fun hno => by omega
    rintro ⟨s, hs, -⟩
    rw [if_pos hroom] at hs
    cases hs
  · rw [if_neg hroom, and_iff_right (Nat.le_of_not_lt hroom)]
    have h0 := htracked 0
    constructor
    · rintro ⟨s, hs, h⟩ c hc hret
      obtain rfl := Option.some.inj hs
      generalize intended answer total (fun _ => true) 0 = s at hc h h0
      have hasked : last s.log c.id = some modErrNextLoop := by rw [h0.last_first hc, hret]
      have hpicked := (retried_picks local_status List.nodup_range h (Nat.succ_pos 8)
        (h0.found.2 ⟨c.id, hasked⟩) h0.rounds c.id).2 hasked
      -- only modules that are loaded are called again
      rw [rounds, h0.loaded, hasked] at hpicked
      exact absurd hpicked.2 (by decide)
    · intro hnone
      have hfound : (intended answer total (fun _ => true) 0).found = false := by
        refine Bool.eq_false_iff.2 fun hyes => ?_
        obtain ⟨i, hi⟩ := h0.found.1 hyes
        obtain ⟨c, hc, -, hret⟩ := last_mem hi
        exact hnone c hc hret
      refine ⟨_, rfl, ?_⟩
      rw [rounds_still hfound]
      have hall : intended answer total (fun _ => true) 9 =
          intended answer total (fun _ => true) 0 := by
        rw [intended]
        exact rounds_still hfound 9
      rw [← hall]
      exact (htracked 9).retried

/-- Where no module has failed, the modules that are not loaded are those that asked. -/
theorem apPick_eq_asking {bp : Nat → Bool} (h : s.Tracked n is fun i => i ∈ is ∧ bp i = true)
    (hclean : ∀ i ret, last s.log i = some ret → ret = modErrOk ∨ ret = modErrNextLoop) {i : Nat}
    (hi : i ∈ is) : apPick bp s i = asking s i := by
  rw [Bool.eq_iff_iff, apPick, asking, decide_eq_true_eq, Bool.and_eq_true, Bool.not_eq_true']
  constructor
  · rintro ⟨hbp, hstatus⟩
    obtain ⟨c, hc, -, rfl⟩ := (h.first i).2 ⟨hi, hbp⟩
    cases hlast : last s.log c.id with
    | none => exact absurd hlast (last_ne_none hc)
    | some ret =>
        rcases hclean _ _ hlast with rfl | rfl
        · rw [(h.loaded _).2 hlast] at hstatus
          cases hstatus
        · rfl
  · intro hask
    obtain ⟨c, hc, rfl, -⟩ := last_mem hask
    refine ⟨(h.member c hc).2.2, Bool.eq_false_iff.2 fun hstatus => ?_⟩
    rw [(h.loaded _).1 hstatus] at hask
    exact absurd hask (by decide)

/-- A module has failed and not asked. -/
def Loading.Failed (s : Loading) : Prop :=
  ∃ i ret, last s.log i = some ret ∧ ret ≠ modErrOk ∧ ret ≠ modErrNextLoop

theorem initModuleAp_retried_iff (total : Nat) (bp : Nat → Bool) :
    (initModuleAp answer total bp).Retried (fun i => i < total ∧ bp i = true) ↔
      ∀ n < 9, (intended answer total bp n).found = true → ¬ (intended answer total bp n).Failed := by
  have htracked := @intended_tracked answer total bp
  have hdue : (fun i => i < total ∧ bp i = true) = fun i => i ∈ List.range total ∧ bp i = true := by
    simp only [List.mem_range]
  rw [hdue]
  have hfirst : round answer (apPick bp) 0 (List.range total) start = intended answer total bp 0 := by
    refine round_eq local_apPick (fun _ _ _ _ _ => rfl) List.nodup_range fun i hi => ?_
    simp [apPick, start]
  rw [initModuleAp, hfirst]
  -- as long as no module fails while another asks, the two runs are the same
  have hsame : ∀ m, (∀ n < m, (intended answer total bp n).found = true →
      ¬ (intended answer total bp n).Failed) →
      rounds answer (apPick bp) (List.range total) (intended answer total bp 0) m =
        intended answer total bp m := by
    intro m hclean
    induction m with
    | zero => rfl
    | succ m ih =>
        have hm := ih fun n hn => hclean n (by omega)
        rw [rounds_succ, hm, intended_succ]
        split
        case isTrue hfound =>
            refine round_eq local_apPick local_asking List.nodup_range fun i hi => ?_
            refine (local_apPick _ _ i rfl rfl).trans ((apPick_eq_asking (htracked m) ?_ hi).trans
              (local_asking _ _ i rfl rfl))
            intro j ret hlast
            by_contra hno
            exact hclean m (Nat.lt_succ_self m) hfound ⟨j, ret, hlast, not_or.1 hno⟩
        case isFalse => rfl
  constructor
  · intro h n
    induction n using Nat.strongRecOn with
    | ind n ih =>
        rintro hn hfound ⟨i, ret, hlast, hok, hnext⟩
        have hn' := hsame n fun k hk => ih k hk (by omega)
        have hpicked := retried_picks local_apPick List.nodup_range h hn (by rw [hn']; exact hfound)
          (by rw [hn']; exact (htracked n).rounds) i
        rw [hn', hlast, Option.some.injEq] at hpicked
        obtain ⟨c, hc, rfl, -⟩ := last_mem hlast
        refine hnext (hpicked.1 ⟨((htracked n).member c hc).1, ?_⟩)
        have hstatus : (intended answer total bp n).status c.id = false := by
          refine Bool.eq_false_iff.2 fun hyes => hok ?_
          have := ((htracked n).loaded c.id).1 hyes
          rw [hlast] at this
          exact Option.some.inj this
        rw [apPick, ((htracked n).member c hc).2.2, hstatus]
        rfl
  · intro hclean
    rw [hsame 9 hclean]
    exact (htracked 9).retried

end Code

/-- **Module load retry.** `init_module` does what it is for exactly when there is room for all modules
    and none asks to be called again; `init_module_ap` exactly when no module has failed in a round after
    which another one is called again. -/
theorem modules_retried_iff (answer answerAp : Answers) (data : List ModuleData) (total : Nat)
    (bp : Nat → Bool) :
    ((∃ s, initModule answer data = some s ∧
        s.Retried fun i => i < (data.filter ModuleData.usable).length) ↔
      (data.filter ModuleData.usable).length ≤ maxModuleNr ∧
        ∀ c ∈ (intended answer (data.filter ModuleData.usable).length (fun _ => true) 0).log,
          c.ret ≠ modErrNextLoop) ∧
    ((initModuleAp answerAp total bp).Retried (fun i => i < total ∧ bp i = true) ↔
      ∀ n < 9, (intended answerAp total bp n).found = true → ¬ (intended answerAp total bp n).Failed) :=
  ⟨initModule_retried_iff data, initModuleAp_retried_iff total bp⟩

/-- The only module asks to be called again, and is not. -/
theorem not_retried : ¬ ∃ s, initModule (fun log _ => if log = [] then -1 else 0)
      [{ name := some "lua", evhand := some 1 }] = some s ∧ s.Retried fun i => i < 1 := by
  rintro ⟨s, hs, h⟩
  have hlog : s.log = [⟨0, 0, -1⟩] := by
    obtain rfl := Option.some.inj hs
    decide
  obtain ⟨c, hc, hround, -⟩ := (h.again 1 (by decide) (by decide) 0).2 (by rw [hlog]; decide)
  rw [hlog, List.mem_singleton] at hc
  rw [hc] at hround
  cases hround

end Yaos.Module
