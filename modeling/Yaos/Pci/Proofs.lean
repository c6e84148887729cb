import Mathlib.Tactic.IntervalCases
import Yaos.Pci

set_option autoImplicit false

/-! # Each access goes to the function that is meant

Every access sets the address before it uses the data port, so it does not matter what was addressed before.
`init_pci` then lists the functions that there are in the order of the buses. -/

namespace Yaos.Pci

variable {h : Host}

/-! ## Addresses -/

theorem address_decode (b off : BitVec 8) (s : BitVec 5) (f : BitVec 3) :
    let a := 0x80000000 ||| buildConfigAddress b (s.setWidth 8) (f.setWidth 8) off
    a.getLsbD 31 = true ∧ a.extractLsb' 16 8 = b ∧ a.extractLsb' 11 5 = s ∧ a.extractLsb' 8 3 = f ∧
      a.setWidth 8 &&& ~~~3 = off &&& ~~~3 := by
  intro a
  refine ⟨?_, ?_, ?_, ?_, ?_⟩
  · simp [a, buildConfigAddress]
  all_goals
    ext i hi
    simp only [a, buildConfigAddress]
    interval_cases i <;> simp

theorem index_aligned (off : BitVec 8) : Config.index (off &&& ~~~3) = Config.index off := by
  ext i hi
  unfold Config.index
  interval_cases i <;> simp

section Access

variable (b off : BitVec 8) (s : BitVec 5) (f : BitVec 3)

/-- The bridge when the function is addressed. -/
def Host.at (h : Host) : Host := preparePciConfigAccess b (s.setWidth 8) (f.setWidth 8) off h

theorem at_selected : (Host.at b off s f h).selected = h.functions b s f := by
  obtain ⟨henable, hb, hs, hf, -⟩ := address_decode b off s f
  unfold Host.selected Host.at preparePciConfigAccess
  rw [if_pos henable, hb, hs, hf]

theorem at_inl :
    (Host.at b off s f h).inl =
      match h.functions b s f with
      | none => 0xffffffff
      | some c => c.readl off := by
  obtain ⟨-, -, -, -, hoff⟩ := address_decode b off s f
  rw [Host.inl, at_selected]
  cases h.functions b s f with
  | none => rfl
  | some c =>
      dsimp only [Config.readl, Host.offset, Host.at, preparePciConfigAccess]
      rw [hoff, index_aligned]

@[simp] theorem at_functions : (Host.at b off s f h).functions = h.functions := rfl

/-- What a read gets, where there may be no function. -/
def readAt {w : Nat} (read : Config → BitVec 8 → BitVec w) (h : Host) : BitVec w :=
  match h.functions b s f with
  | none => BitVec.allOnes w
  | some c => read c off

theorem readPciConfig_eq :
    readPciConfig b (s.setWidth 8) (f.setWidth 8) off h =
      (readAt b off s f Config.readl h, Host.at b off s f h) := by
  rw [readPciConfig, ← Host.at, at_inl, readAt]
  cases h.functions b s f <;> rfl

theorem readPciConfigWord_eq :
    readPciConfigWord b (s.setWidth 8) (f.setWidth 8) off h =
      (readAt b off s f Config.readw h, Host.at b off s f h) := by
  have hnone : ∀ k : BitVec 8, ((0xffffffff : BitVec 32) >>> (8 * (k &&& 2).toNat)).setWidth 16 =
      BitVec.allOnes 16 := by decide
  rw [readPciConfigWord, ← Host.at, Host.inw, at_inl, readAt]
  cases h.functions b s f with
  | none => rw [hnone]
  | some c => rfl

theorem readPciConfigByte_eq :
    readPciConfigByte b (s.setWidth 8) (f.setWidth 8) off h =
      (readAt b off s f Config.readb h, Host.at b off s f h) := by
  have hnone : ∀ k : BitVec 8, ((0xffffffff : BitVec 32) >>> (8 * (k &&& 3).toNat)).setWidth 8 =
      BitVec.allOnes 8 := by decide
  rw [readPciConfigByte, ← Host.at, Host.inb, at_inl, readAt]
  cases h.functions b s f with
  | none => rw [hnone]
  | some c => rfl

/-- A write changes the registers of the function and no others. -/
theorem at_out (en v : BitVec 32) :
    ((Host.at b off s f h).out en v).functions = fun b' s' f' =>
      if b' = b ∧ s' = s ∧ f' = f then (h.functions b s f).map fun c => c.write off en v
      else h.functions b' s' f' := by
  obtain ⟨-, hb, hs, hf, hoff⟩ := address_decode b off s f
  have hwrite : ∀ c : Config, c.write (Host.at b off s f h).offset en v = c.write off en v := by
    intro c
    dsimp only [Config.write, Host.offset, Host.at, preparePciConfigAccess]
    rw [hoff, index_aligned]
  funext b' s' f'
  rw [Host.out, at_selected]
  cases hfun : h.functions b s f with
  | none =>
      dsimp only [at_functions]
      split
      · next heq =>
          obtain ⟨rfl, rfl, rfl⟩ := heq
          rw [hfun]
          rfl
      · rfl
  | some c =>
      simp only [hwrite, Option.map_some]
      unfold Host.at preparePciConfigAccess
      simp only [hb, hs, hf]

end Access

/-! ## The table -/

/-- The functions in the order in which they are looked for. -/
def allFunctions : List (BitVec 8 × BitVec 5 × BitVec 3) :=
  (List.range 256).flatMap fun b => (List.range 32).flatMap fun s => (List.range 8).map fun f =>
    (BitVec.ofNat 8 b, BitVec.ofNat 5 s, BitVec.ofNat 3 f)

theorem mem_allFunctions (b : BitVec 8) (s : BitVec 5) (f : BitVec 3) : (b, s, f) ∈ allFunctions := by
  unfold allFunctions
  refine List.mem_flatMap.2 ⟨b.toNat, List.mem_range.2 b.isLt, ?_⟩
  refine List.mem_flatMap.2 ⟨s.toNat, List.mem_range.2 s.isLt, ?_⟩
  refine List.mem_map.2 ⟨f.toNat, List.mem_range.2 f.isLt, ?_⟩
  simp only [BitVec.ofNat_toNat, BitVec.setWidth_eq]

/-- The entry for a function that there is. -/
def present (functions : BitVec 8 → BitVec 5 → BitVec 3 → Option Config)
    (x : BitVec 8 × BitVec 5 × BitVec 3) : Option PciBsf :=
  (functions x.1 x.2.1 x.2.2).bind fun c =>
    if c.readw 0 = 0xffff then none
    else some { vid := c.readw 0, did := c.readw 2, b := x.1, s := x.2.1.setWidth 8, f := x.2.2.setWidth 8 }

/-- A part of the scan that appends `l` to the table. -/
def Appends (functions : BitVec 8 → BitVec 5 → BitVec 3 → Option Config) (step : Scan → Option Scan)
    (l : List PciBsf) : Prop :=
  ∀ table h, h.functions = functions → table.length + l.length ≤ maxPci →
    ∃ h', step (table, h) = some (table ++ l, h') ∧ h'.functions = functions

variable {functions : BitVec 8 → BitVec 5 → BitVec 3 → Option Config}

theorem Appends.foldlM {α : Type} {step : α → Scan → Option Scan} {l : α → List PciBsf} {as : List α}
    (hstep : ∀ a ∈ as, Appends functions (step a) (l a)) :
    Appends functions (fun scan => as.foldlM (fun scan a => step a scan) scan) (as.flatMap l) := by
  induction as with
  | nil =>
      intro table h hfun _
      exact ⟨h, by simp, hfun⟩
  | cons a as ih =>
      intro table h hfun hroom
      rw [List.flatMap_cons, List.length_append] at hroom
      obtain ⟨h₁, hfirst, hfun₁⟩ := hstep a (List.mem_cons_self ..) table h hfun (by omega)
      obtain ⟨h₂, hrest, hfun₂⟩ := ih (fun a ha => hstep a (List.mem_cons_of_mem _ ha))
        (table ++ l a) h₁ hfun₁ (by rw [List.length_append]; omega)
      refine ⟨h₂, ?_, hfun₂⟩
      dsimp only
      rw [List.foldlM_cons, hfirst, List.flatMap_cons, ← List.append_assoc]
      exact hrest

/-- The ids that are read. -/
theorem readAt_word (b : BitVec 8) (s : BitVec 5) (f : BitVec 3) (hfun : h.functions = functions) :
    present functions (b, s, f) =
      if readAt b 0 s f Config.readw h = 0xffff then none
      else some
        { vid := readAt b 0 s f Config.readw h
          did := readAt b 2 s f Config.readw h
          b := b
          s := s.setWidth 8
          f := f.setWidth 8 } := by
  subst hfun
  unfold present readAt
  cases h.functions b s f <;> rfl

theorem initPciFunction_appends {b s f : Nat} (hs : s < 32) (hf : f < 8) :
    Appends functions (initPciFunction b s f)
      (present functions (BitVec.ofNat 8 b, BitVec.ofNat 5 s, BitVec.ofNat 3 f)).toList := by
  intro table h hfun hroom
  have hs' : BitVec.ofNat 8 s = (BitVec.ofNat 5 s).setWidth 8 :=
    (BitVec.setWidth_ofNat_of_le_of_lt (by decide) hs).symm
  have hf' : BitVec.ofNat 8 f = (BitVec.ofNat 3 f).setWidth 8 :=
    (BitVec.setWidth_ofNat_of_le_of_lt (by decide) hf).symm
  rw [readAt_word _ _ _ hfun] at hroom ⊢
  unfold initPciFunction
  rw [hs', hf']
  simp only [readPciConfigWord_eq]
  by_cases hvid : readAt (BitVec.ofNat 8 b) 0 (BitVec.ofNat 5 s) (BitVec.ofNat 3 f) Config.readw h = 0xffff
  · rw [if_pos hvid, if_neg (not_not_intro hvid), Option.toList_none, List.append_nil]
    exact ⟨_, rfl, hfun⟩
  · rw [if_neg hvid] at hroom ⊢
    have hlt : table.length < maxPci := hroom
    rw [if_pos hvid, if_pos hlt]
    exact ⟨_, rfl, hfun⟩

/-- The functions that there are, in the order of `allFunctions`. -/
def presentFunctions (functions : BitVec 8 → BitVec 5 → BitVec 3 → Option Config) : List PciBsf :=
  allFunctions.filterMap (present functions)

theorem presentFunctions_eq :
    presentFunctions functions =
      (List.range 256).flatMap fun b => (List.range 32).flatMap fun s => (List.range 8).flatMap fun f =>
        (present functions (BitVec.ofNat 8 b, BitVec.ofNat 5 s, BitVec.ofNat 3 f)).toList := by
  rw [presentFunctions, List.filterMap_eq_flatMap_toList]
  simp only [allFunctions, List.flatMap_assoc, List.flatMap_map]

theorem initPci_eq (hfew : (presentFunctions h.functions).length ≤ maxPci) :
    ∃ h', initPci h = some (presentFunctions h.functions, h') ∧ h'.functions = h.functions := by
  have happ : Appends h.functions (fun scan => (List.range 256).foldlM (fun scan b =>
      (List.range 32).foldlM (fun scan s =>
        (List.range 8).foldlM (fun scan f => initPciFunction b s f scan) scan) scan) scan)
      (presentFunctions h.functions) := by
    rw [presentFunctions_eq]
    refine Appends.foldlM fun b _ => Appends.foldlM fun s hs => Appends.foldlM fun f hf => ?_
    exact initPciFunction_appends (List.mem_range.1 hs) (List.mem_range.1 hf)
  obtain ⟨h', hscan, hfun⟩ := happ [] h rfl (by simpa using hfew)
  exact ⟨h', hscan, hfun⟩

/-- There is a function with these ids. -/
def HasIds (functions : BitVec 8 → BitVec 5 → BitVec 3 → Option Config) (vid did : BitVec 16)
    (x : BitVec 8 × BitVec 5 × BitVec 3) : Prop :=
  ∃ c, functions x.1 x.2.1 x.2.2 = some c ∧ c.readw 0 = vid ∧ c.readw 2 = did

theorem any_present_iff {vid did : BitVec 16} (hvid : vid ≠ 0xffff)
    (x : BitVec 8 × BitVec 5 × BitVec 3) :
    (present functions x).any (fun e => e.vid == vid && e.did == did) = true ↔
      HasIds functions vid did x := by
  unfold present HasIds
  cases functions x.1 x.2.1 x.2.2 with
  | none => simp
  | some c =>
      by_cases hnone : c.readw 0 = 0xffff
      · have hne : c.readw 0 ≠ vid := fun heq => hvid (heq.symm.trans hnone)
        simp only [Option.bind_some, if_pos hnone, Option.any_none]
        exact iff_of_false Bool.false_ne_true fun ⟨_, heq, hids, _⟩ =>
          hne ((Option.some.inj heq).symm ▸ hids)
      · simp only [Option.bind_some, if_neg hnone, Option.any_some, Bool.and_eq_true, beq_iff_eq,
          Option.some.injEq, exists_eq_left']

theorem present_place {x : BitVec 8 × BitVec 5 × BitVec 3} {e : PciBsf}
    (h : present functions x = some e) : (e.b, e.s, e.f) = (x.1, x.2.1.setWidth 8, x.2.2.setWidth 8) := by
  unfold present at h
  obtain ⟨c, -, hc⟩ := Option.bind_eq_some_iff.1 h
  split at hc
  · cases hc
  · cases hc
    rfl

/-- After `init_pci` the driver of a device is given the first function with its ids, if there is one. -/
theorem findPci_initPci (hfew : (presentFunctions h.functions).length ≤ maxPci) {vid : BitVec 16}
    (hvid : vid ≠ 0xffff) (did : BitVec 16) :
    ∃ table h', initPci h = some (table, h') ∧ h'.functions = h.functions ∧
      (findPci table vid did = none → ∀ x, ¬ HasIds h.functions vid did x) ∧
      ∀ r, findPci table vid did = some r → ∃ before x after, allFunctions = before ++ x :: after ∧
        r = (x.1, x.2.1.setWidth 8, x.2.2.setWidth 8) ∧ HasIds h.functions vid did x ∧
        ∀ y ∈ before, ¬ HasIds h.functions vid did y := by
  obtain ⟨h', hscan, hfun⟩ := initPci_eq hfew
  have hany : ∀ x, (present h.functions x).any (fun e => e.vid == vid && e.did == did) = true ↔
      HasIds h.functions vid did x := any_present_iff hvid
  refine ⟨_, h', hscan, hfun, fun hnone x hx => ?_, fun r hr => ?_⟩
  · rw [findPci, Option.map_eq_none_iff, presentFunctions, List.find?_eq_none] at hnone
    have hx' := (hany x).2 hx
    obtain ⟨e, he, hids⟩ := (Option.any_eq_true _ _).1 hx'
    exact hnone e (List.mem_filterMap.2 ⟨x, mem_allFunctions _ _ _, he⟩) hids
  · rw [findPci, presentFunctions, List.find?_filterMap] at hr
    obtain ⟨e, he, rfl⟩ := Option.map_eq_some_iff.1 hr
    obtain ⟨x, hfind, hx⟩ := Option.bind_eq_some_iff.1 he
    obtain ⟨hids, before, after, hsplit, hbefore⟩ := List.find?_eq_some_iff_append.1 hfind
    refine ⟨before, x, after, hsplit, present_place hx, (hany x).1 hids, fun y hy hy' => ?_⟩
    have hno := hbefore y hy
    rw [(hany y).2 hy'] at hno
    cases hno

theorem length_flatMap_le {α : Type} {g : Nat → List α} {n k : Nat} (hg : ∀ i < n, i ≠ k → g i = []) :
    ((List.range n).flatMap g).length ≤ (g k).length := by
  induction n with
  | zero => exact Nat.zero_le _
  | succ n ih =>
      rw [List.range_succ, List.flatMap_append, List.length_append, List.flatMap_singleton]
      by_cases hn : n = k
      · have hbefore : (List.range n).flatMap g = [] := by
          rw [List.flatMap_eq_nil_iff]
          intro i hi
          have hlt := List.mem_range.1 hi
          exact hg i (Nat.lt_succ_of_lt hlt) (by omega)
        rw [hbefore, hn, List.length_nil, Nat.zero_add]
      · rw [hg n (Nat.lt_succ_self n) hn]
        exact ih fun i hi => hg i (Nat.lt_succ_of_lt hi)

/-- A network card in the slot 3 of the first bus, which does not look at the number of the function. -/
def oneCard : Host where
  address := 0
  functions b s _ :=
    if b = 0 ∧ s = 3 then some fun i => { val := if i = 0 then 0x10001af4 else 0, mask := 0 } else none

theorem oneCard_few : (presentFunctions oneCard.functions).length ≤ maxPci := by
  have hnone : ∀ b s f, ¬ (b = 0 ∧ s = 3) → present oneCard.functions (b, s, f) = none := by
    intro b s f hbs
    unfold present oneCard
    dsimp only
    rw [if_neg hbs, Option.bind_none]
  rw [presentFunctions_eq]
  refine Nat.le_trans (length_flatMap_le (k := 0) fun b hb hne => ?_)
    (Nat.le_trans (length_flatMap_le (k := 3) fun s hs hne => ?_) ?_)
  · have hbus : BitVec.ofNat 8 b ≠ 0 := fun h => by
      have hto := congrArg BitVec.toNat h
      rw [BitVec.toNat_ofNat, Nat.mod_eq_of_lt hb] at hto
      exact hne hto
    simp [hnone _ _ _ fun h => hbus h.1]
  · have hslot : BitVec.ofNat 5 s ≠ 3 := fun h => by
      have hto := congrArg BitVec.toNat h
      rw [BitVec.toNat_ofNat, Nat.mod_eq_of_lt hs] at hto
      exact hne hto
    simp [hnone _ _ _ fun h => hslot h.2]
  · decide

theorem findPci_initPci_oneCard :
    ∃ table h', initPci oneCard = some (table, h') ∧ h'.functions = oneCard.functions ∧
      (findPci table 0x1af4 0x1000 = none → ∀ x, ¬ HasIds oneCard.functions 0x1af4 0x1000 x) ∧
      ∀ r, findPci table 0x1af4 0x1000 = some r → ∃ before x after, allFunctions = before ++ x :: after ∧
        r = (x.1, x.2.1.setWidth 8, x.2.2.setWidth 8) ∧ HasIds oneCard.functions 0x1af4 0x1000 x ∧
        ∀ y ∈ before, ¬ HasIds oneCard.functions 0x1af4 0x1000 y :=
  findPci_initPci oneCard_few (by decide) 0x1000

end Yaos.Pci
