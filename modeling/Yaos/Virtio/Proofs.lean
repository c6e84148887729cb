import Mathlib.Data.List.Chain
import Mathlib.Data.List.Iterate
import Mathlib.Data.List.Perm.Basic
import Mathlib.Data.List.Range
import Mathlib.Tactic.Common
import Yaos.Lib.Ring
import Yaos.Virtio

set_option autoImplicit false

/-! # Who owns a descriptor

Every descriptor of a queue is on the free list or in the chain of exactly one request that the
driver has not collected. The invariant names the two parts: `free`, the free list in the order of
its links, and `reqs`, the requests with their chains. Each request still describes its buffers, and
the two rings hold the requests the other party has not read. -/

namespace Yaos

/-! ## Descriptors -/

/-- `vd->flags & VRING_DESC_F_WRITE`. -/
def VringDesc.isWrite (vd : VringDesc) : Bool := vd.flags &&& vringDescFWrite != 0

/-- The device writes to the buffer. -/
def AddrSize.isWrite (vp : AddrSize) : Bool := vp.vpFlags &&& 2 != 0

/-- The descriptor describes the buffer `vp`. -/
def VringDesc.Carries (vd : VringDesc) (vp : AddrSize) : Prop :=
  vd.addr = vp.vpAddr ∧ vd.len = vp.vpSize ∧ vd.isWrite = vp.isWrite

section UseVringDesc

variable (vd : VringDesc) (vp : AddrSize)

theorem useVringDesc_flags : (useVringDesc vd vp).flags =
    if vp.isWrite then vringDescFNext ||| vringDescFWrite else vringDescFNext := by
  simp [useVringDesc, AddrSize.isWrite]

@[simp] theorem useVringDesc_next : (useVringDesc vd vp).next = vd.next := rfl

@[simp] theorem useVringDesc_hasNext : (useVringDesc vd vp).hasNext = true := by
  rw [VringDesc.hasNext, useVringDesc_flags]
  split <;> decide

@[simp] theorem useVringDesc_isIndirect : (useVringDesc vd vp).isIndirect = false := by
  rw [VringDesc.isIndirect, useVringDesc_flags]
  split <;> decide

theorem useVringDesc_carries : (useVringDesc vd vp).Carries vp := by
  refine ⟨rfl, rfl, ?_⟩
  rw [VringDesc.isWrite, useVringDesc_flags]
  cases vp.isWrite <;> decide

end UseVringDesc

section UnsetNext

variable (vd : VringDesc)

@[simp] theorem unsetNext_hasNext : vd.unsetNext.hasNext = false := by
  simp only [VringDesc.hasNext, VringDesc.unsetNext, BitVec.and_assoc]
  have hmask : ~~~vringDescFNext &&& vringDescFNext = 0 := by decide
  simp [hmask]

@[simp] theorem unsetNext_isIndirect : vd.unsetNext.isIndirect = vd.isIndirect := by
  simp only [VringDesc.isIndirect, VringDesc.unsetNext, BitVec.and_assoc]
  have hmask : ~~~vringDescFNext &&& vringDescFIndirect = vringDescFIndirect := by decide
  rw [hmask]

theorem VringDesc.Carries.unsetNext {vd : VringDesc} {vp : AddrSize} (h : vd.Carries vp) :
    vd.unsetNext.Carries vp := by
  refine ⟨h.1, h.2.1, ?_⟩
  rw [← h.2.2]
  simp only [VringDesc.isWrite, VringDesc.unsetNext, BitVec.and_assoc]
  have hmask : ~~~vringDescFNext &&& vringDescFWrite = vringDescFWrite := by decide
  rw [hmask]

end UnsetNext

/-! ## Requests -/

/-- The chain `ids` describes the buffers `bufs` one after the other. -/
def DirectChain (desc : Nat → VringDesc) : List Nat → List AddrSize → Prop
  | [i], [vp] => (desc i).hasNext = false ∧ (desc i).isIndirect = false ∧ (desc i).Carries vp
  | i :: j :: ids, vp :: bufs =>
      ((desc i).hasNext = true ∧ (desc i).isIndirect = false ∧ (desc i).next = j ∧
        (desc i).Carries vp) ∧ DirectChain desc (j :: ids) bufs
  | _, _ => False

/-- The table lists the buffers `bufs` from its first entry on. -/
def IndirectDescTable.Lists (t : IndirectDescTable) (bufs : List AddrSize) : Prop :=
  ∀ (k : Nat) (hk : k < bufs.length), (t.descs k).Carries (bufs.get ⟨k, hk⟩) ∧
    (t.descs k).next = k + 1 ∧ ((t.descs k).hasNext = true ↔ k + 1 < bufs.length)

/-- The descriptor `i` refers to a table that lists `bufs`. -/
structure IndirectDesc (indirect : List IndirectDescTable) (vd : VringDesc)
    (bufs : List AddrSize) : Prop where
  hasNext : vd.hasNext = false
  isIndirect : vd.isIndirect = true
  nonempty : bufs ≠ []
  len : vd.len = bufs.length * 16
  table : ∃ t ∈ indirect, t.paddr = vd.addr ∧ t.Lists bufs

/-- The chain `ids` describes the buffers `bufs`, directly or through a table. -/
def Request (indirect : List IndirectDescTable) (desc : Nat → VringDesc) (ids : List Nat)
    (bufs : List AddrSize) : Prop :=
  DirectChain desc ids bufs ∨ ∃ i, ids = [i] ∧ IndirectDesc indirect (desc i) bufs

theorem directChain_next {desc : Nat → VringDesc} {i j : Nat} {ids : List Nat} {vp : AddrSize}
    {bufs : List AddrSize} : DirectChain desc (i :: j :: ids) (vp :: bufs) ↔
      ((desc i).hasNext = true ∧ (desc i).isIndirect = false ∧ (desc i).next = j ∧
        (desc i).Carries vp) ∧ DirectChain desc (j :: ids) bufs := by
  rw [DirectChain]

/-- Induction on a chain, which ends in one descriptor or goes on. -/
@[elab_as_elim]
theorem DirectChain.induction_on {desc : Nat → VringDesc}
    {motive : ∀ (ids : List Nat) (bufs : List AddrSize), DirectChain desc ids bufs → Prop}
    (last : ∀ (i : Nat) (vp : AddrSize) (h : DirectChain desc [i] [vp]), motive [i] [vp] h)
    (next : ∀ (i j : Nat) (ids : List Nat) (vp : AddrSize) (bufs : List AddrSize)
      (h : DirectChain desc (i :: j :: ids) (vp :: bufs)) (hrest : DirectChain desc (j :: ids) bufs),
      motive (j :: ids) bufs hrest → motive (i :: j :: ids) (vp :: bufs) h)
    {ids : List Nat} {bufs : List AddrSize} (h : DirectChain desc ids bufs) : motive ids bufs h := by
  induction ids generalizing bufs with
  | nil => exact absurd h (by simp [DirectChain])
  | cons i ids ih =>
      cases ids with
      | nil =>
          cases bufs with
          | nil => exact absurd h (by simp [DirectChain])
          | cons vp bufs =>
              cases bufs with
              | nil => exact last i vp h
              | cons w bufs => exact absurd h (by simp [DirectChain])
      | cons j ids =>
          cases bufs with
          | nil => exact absurd h (by simp [DirectChain])
          | cons vp bufs =>
              have hrest := (directChain_next.1 h).2
              exact next i j ids vp bufs h hrest (ih hrest)

theorem DirectChain.congr {desc desc' : Nat → VringDesc} {ids : List Nat} {bufs : List AddrSize}
    (h : DirectChain desc ids bufs) (heq : ∀ i ∈ ids, desc' i = desc i) :
    DirectChain desc' ids bufs := by
  induction h using DirectChain.induction_on with
  | last i vp h => simpa only [DirectChain, heq i (List.mem_cons_self ..)] using h
  | next i j ids vp bufs h hrest ih =>
      rw [directChain_next, heq i (List.mem_cons_self ..)]
      exact ⟨(directChain_next.1 h).1, ih fun k hk => heq k (List.mem_cons_of_mem _ hk)⟩

/-- A direct chain has no descriptor that refers to a table. -/
theorem DirectChain.not_indirect {desc : Nat → VringDesc} {ids : List Nat} {bufs : List AddrSize}
    (h : DirectChain desc ids bufs) : ∀ i ∈ ids, (desc i).isIndirect = false := by
  induction h using DirectChain.induction_on with
  | last i vp h =>
      intro k hk
      obtain rfl := List.mem_singleton.1 hk
      exact h.2.1
  | next i j ids vp bufs h hrest ih =>
      intro k hk
      rcases List.mem_cons.1 hk with rfl | hk
      · exact (directChain_next.1 h).1.2.1
      · exact ih k hk

/-- A chain has a descriptor for each buffer. -/
theorem DirectChain.length_eq {desc : Nat → VringDesc} {ids : List Nat} {bufs : List AddrSize}
    (h : DirectChain desc ids bufs) : ids.length = bufs.length := by
  induction h using DirectChain.induction_on with
  | last i vp h => rfl
  | next i j ids vp bufs h hrest ih => rw [List.length_cons, ih, List.length_cons]

theorem Request.congr {indirect : List IndirectDescTable} {desc desc' : Nat → VringDesc}
    {ids : List Nat} {bufs : List AddrSize} (h : Request indirect desc ids bufs)
    (heq : ∀ i ∈ ids, desc' i = desc i) : Request indirect desc' ids bufs := by
  rcases h with hd | ⟨i, rfl, hi⟩
  · exact .inl (hd.congr heq)
  · refine .inr ⟨i, rfl, ?_⟩
    rw [heq i (List.mem_singleton_self i)]
    exact hi

/-! ## Filling descriptors -/

/-- One link of a chain. -/
def Links (desc : Nat → VringDesc) (i j : Nat) : Prop := (desc i).next = j

/-- The loop of `set_direct_descriptors` fills the descriptors `ids` in front of `j`, one for each
    buffer, and keeps their links. -/
theorem directLoop_spec {desc : Nat → VringDesc} {ids : List Nat} {bufs : List AddrSize} {j : Nat}
    {v : Option Nat} (hlen : ids.length = bufs.length) (hnodup : ids.Nodup)
    (hlink : (ids ++ [j]).IsChain (Links desc)) (hflags : ∀ i ∈ ids, (desc i).hasNext = true) :
    ∃ desc', directLoop bufs desc ((ids ++ [j]).headD 0) v = .ok (desc', j, ids.getLast?.or v) ∧
      List.Forall₂ (fun i vp => desc' i = useVringDesc (desc i) vp) ids bufs ∧
      ∀ i, i ∉ ids → desc' i = desc i := by
  induction ids generalizing desc bufs v with
  | nil =>
      obtain rfl := List.length_eq_zero_iff.1 hlen.symm
      exact ⟨desc, rfl, .nil, fun _ _ => rfl⟩
  | cons i ids ih =>
      cases bufs with
      | nil => simp at hlen
      | cons vp bufs =>
          obtain ⟨hnotin, hnodup⟩ := List.nodup_cons.1 hnodup
          set desc₁ := Function.update desc i (useVringDesc (desc i) vp) with hdesc₁
          have hsame : ∀ k, k ≠ i → desc₁ k = desc k := fun k hk => Function.update_of_ne hk _ _
          have hmem : ∀ k ∈ ids, desc₁ k = desc k := fun k hk => hsame k fun h => hnotin (h ▸ hk)
          have hlinks : ∀ k l, Links desc k l → Links desc₁ k l := by
            intro k l hkl
            by_cases hk : k = i
            · subst hk
              simpa [Links, hdesc₁] using hkl
            · rw [Links, hsame k hk]
              exact hkl
          have hrest : (ids ++ [j]).IsChain (Links desc) := hlink.tail
          obtain ⟨desc', hrun, hused, hother⟩ := ih (v := some i) (by simpa using hlen) hnodup
            (hrest.imp hlinks) fun k hk => by rw [hmem k hk]; exact hflags k (List.mem_cons_of_mem _ hk)
          have hnext : (desc i).next = (ids ++ [j]).headD 0 := by
            cases ids with
            | nil => exact (List.isChain_cons_cons.1 hlink).1
            | cons k ids => exact (List.isChain_cons_cons.1 hlink).1
          refine ⟨desc', ?_, .cons ?_ ?_, ?_⟩
          · show directLoop (vp :: bufs) desc i v = _
            rw [directLoop]
            refine (assert_bind (hflags i (List.mem_cons_self ..))).trans ?_
            rw [hnext, hrun]
            cases ids with
            | nil => rfl
            | cons k ids => simp [List.getLast?_cons]
          · rw [hother i hnotin, hdesc₁, Function.update_self]
          · refine hused.imp fun k w hk => hk.trans ?_
            by_cases hki : k = i
            · subst hki
              rw [hdesc₁, Function.update_self]
              rfl
            · rw [hsame k hki]
          · intro k hk
            rw [hother k fun h => hk (List.mem_cons_of_mem _ h)]
            exact hsame k fun h => hk (h ▸ List.mem_cons_self ..)

/-- The filled descriptors describe the buffers once the last of them has lost its NEXT flag. -/
theorem directChain_of_used {desc desc' : Nat → VringDesc} {ids : List Nat} {bufs : List AddrSize}
    {last : Nat} (hused : List.Forall₂ (fun i vp => desc' i = useVringDesc (desc i) vp) ids bufs)
    (hnodup : ids.Nodup) (hlink : ids.IsChain (Links desc)) (hlast : ids.getLast? = some last) :
    DirectChain (Function.update desc' last (desc' last).unsetNext) ids bufs := by
  induction hused with
  | nil => cases hlast
  | @cons i vp ids bufs hi hrest ih =>
      cases hrest with
      | nil =>
          obtain rfl : i = last := by simpa using hlast
          rw [DirectChain, Function.update_self, hi]
          exact ⟨by simp, by simp, (useVringDesc_carries _ _).unsetNext⟩
      | @cons j w ids bufs hj hrest =>
          obtain ⟨hij, hlink⟩ := List.isChain_cons_cons.1 hlink
          obtain ⟨hnotin, hnodup⟩ := List.nodup_cons.1 hnodup
          have hlast' : (j :: ids).getLast? = some last := by simpa [List.getLast?_cons] using hlast
          have hne : i ≠ last := fun h => hnotin (h ▸ List.mem_of_getLast? hlast')
          rw [DirectChain, Function.update_of_ne hne, hi]
          exact ⟨⟨by simp, by simp, hij, useVringDesc_carries _ _⟩, ih hnodup hlink hlast'⟩

/-! ## Indirect tables -/

/-- The tables of a device, where `refs k i a` says that descriptor `i` of queue `k` refers to the
    table at `a`. -/
structure TablesInv (indirect : List IndirectDescTable) (refs : Nat → Nat → Nat → Prop) :
    Prop where
  nodup : (indirect.map (·.paddr)).Nodup
  known : ∀ k i a, refs k i a → ∃ t ∈ indirect, t.paddr = a
  inUse : ∀ t ∈ indirect, t.inUse = true ↔ ∃ k i, refs k i t.paddr
  unique : ∀ k k' i i' a, refs k i a → refs k' i' a → k = k' ∧ i = i'

theorem findIdx?_split {α : Type} {p : α → Bool} {l : List α} {k : Nat}
    (h : l.findIdx? p = some k) :
    ∃ l₁ x l₂, l = l₁ ++ x :: l₂ ∧ p x = true ∧ l₁.length = k := by
  obtain ⟨hk, hp, -⟩ := List.findIdx?_eq_some_iff_getElem.1 h
  refine ⟨l.take k, l[k], l.drop (k + 1), ?_, hp, ?_⟩
  · rw [List.getElem_cons_drop hk, List.take_append_drop]
  · rw [List.length_take]
    omega

section Tables

variable {l₁ l₂ : List IndirectDescTable} {t t' : IndirectDescTable}
  {refs refs' : Nat → Nat → Nat → Prop} {k₀ i₀ : Nat}

theorem TablesInv.paddr_ne (h : TablesInv (l₁ ++ t :: l₂) refs) {u : IndirectDescTable}
    (hu : u ∈ l₁ ∨ u ∈ l₂) : u.paddr ≠ t.paddr := by
  have hnodup := h.nodup
  rw [List.map_append, List.map_cons, List.perm_middle.nodup_iff, List.nodup_cons,
    ← List.map_append] at hnodup
  intro heq
  exact hnodup.1 (heq ▸ List.mem_map_of_mem (List.mem_append.2 hu))

theorem TablesInv.replace_nodup (h : TablesInv (l₁ ++ t :: l₂) refs) (ht : t'.paddr = t.paddr) :
    ((l₁ ++ t' :: l₂).map (·.paddr)).Nodup := by
  have hnodup := h.nodup
  simp only [List.map_append, List.map_cons, ht] at hnodup ⊢
  exact hnodup

/-- The tables that are referred to are still there. -/
theorem TablesInv.replace_known (h : TablesInv (l₁ ++ t :: l₂) refs) (ht : t'.paddr = t.paddr) {k : Nat}
    {i : Nat} {a : Nat} (hr : refs k i a) : ∃ u ∈ l₁ ++ t' :: l₂, u.paddr = a := by
  obtain ⟨u, hu, rfl⟩ := h.known k i a hr
  simp only [List.mem_append, List.mem_cons] at hu ⊢
  rcases hu with hu | rfl | hu
  · exact ⟨u, .inl hu, rfl⟩
  · exact ⟨t', .inr (.inl rfl), ht⟩
  · exact ⟨u, .inr (.inr hu), rfl⟩

/-- The other tables are those that were there, at other addresses. -/
theorem TablesInv.others (h : TablesInv (l₁ ++ t :: l₂) refs) {u : IndirectDescTable}
    (hu : u ∈ l₁ ++ t' :: l₂) (hut : u ≠ t') : u ∈ l₁ ++ t :: l₂ ∧ u.paddr ≠ t.paddr := by
  have hside : u ∈ l₁ ∨ u ∈ l₂ := by
    simp only [List.mem_append, List.mem_cons] at hu
    tauto
  refine ⟨?_, h.paddr_ne hside⟩
  simp only [List.mem_append, List.mem_cons]
  tauto

/-- A table that was not in use is taken for one new descriptor. -/
theorem TablesInv.take (h : TablesInv (l₁ ++ t :: l₂) refs) (hfree : t.inUse = false)
    (ht : t'.paddr = t.paddr) (hused : t'.inUse = true)
    (hrefs : ∀ k i a, refs' k i a ↔ refs k i a ∨ k = k₀ ∧ i = i₀ ∧ a = t.paddr) :
    TablesInv (l₁ ++ t' :: l₂) refs' := by
  have hnone : ∀ k i, ¬ refs k i t.paddr := by
    intro k i hr
    have := (h.inUse t (by simp)).2 ⟨k, i, hr⟩
    rw [hfree] at this
    cases this
  refine ⟨h.replace_nodup ht, ?_, ?_, ?_⟩
  · intro k i a hr
    rcases (hrefs k i a).1 hr with hr | ⟨-, -, rfl⟩
    · exact h.replace_known ht hr
    · exact ⟨t', by simp, ht⟩
  · intro u hu
    by_cases hut : u = t'
    · subst hut
      exact iff_of_true hused ⟨k₀, i₀, (hrefs _ _ _).2 (.inr ⟨rfl, rfl, ht⟩)⟩
    · obtain ⟨hold, hne⟩ := h.others hu hut
      rw [h.inUse u hold]
      constructor
      · rintro ⟨k, i, hr⟩
        exact ⟨k, i, (hrefs _ _ _).2 (.inl hr)⟩
      · rintro ⟨k, i, hr⟩
        rcases (hrefs _ _ _).1 hr with hr | ⟨-, -, heq⟩
        · exact ⟨k, i, hr⟩
        · exact absurd heq hne
  · intro k k' i i' a hr hr'
    rcases (hrefs _ _ _).1 hr with hr | ⟨rfl, rfl, rfl⟩
    · rcases (hrefs _ _ _).1 hr' with hr' | ⟨rfl, rfl, rfl⟩
      · exact h.unique _ _ _ _ _ hr hr'
      · exact absurd hr (hnone _ _)
    · rcases (hrefs _ _ _).1 hr' with hr' | ⟨rfl, rfl, -⟩
      · exact absurd hr' (hnone _ _)
      · exact ⟨rfl, rfl⟩

/-- The table is given up with the only descriptor that refers to it. -/
theorem TablesInv.release (h : TablesInv (l₁ ++ t :: l₂) refs) (hr₀ : refs k₀ i₀ t.paddr)
    (hsingle : ∀ a, refs k₀ i₀ a → a = t.paddr) (ht : t'.paddr = t.paddr) (hfree : t'.inUse = false)
    (hrefs : ∀ k i a, refs' k i a ↔ refs k i a ∧ ¬ (k = k₀ ∧ i = i₀)) :
    TablesInv (l₁ ++ t' :: l₂) refs' := by
  refine ⟨h.replace_nodup ht, ?_, ?_, ?_⟩
  · intro k i a hr
    exact h.replace_known ht ((hrefs k i a).1 hr).1
  · intro u hu
    by_cases hut : u = t'
    · subst hut
      refine iff_of_false (by simp [hfree]) ?_
      rintro ⟨k, i, hr⟩
      obtain ⟨hr, hne⟩ := (hrefs _ _ _).1 hr
      rw [ht] at hr
      exact hne (h.unique _ _ _ _ _ hr hr₀)
    · obtain ⟨hold, hne⟩ := h.others hu hut
      rw [h.inUse u hold]
      constructor
      · rintro ⟨k, i, hr⟩
        refine ⟨k, i, (hrefs _ _ _).2 ⟨hr, ?_⟩⟩
        rintro ⟨rfl, rfl⟩
        exact hne (hsingle _ hr)
      · rintro ⟨k, i, hr⟩
        exact ⟨k, i, ((hrefs _ _ _).1 hr).1⟩
  · intro k k' i i' a hr hr'
    exact h.unique _ _ _ _ _ ((hrefs _ _ _).1 hr).1 ((hrefs _ _ _).1 hr').1

end Tables

/-! ## Walking a chain back -/

/-- Only what is in front of the last element decides the links of a list. -/
theorem isChain_imp_dropLast {α : Type} {R S : α → α → Prop} {l : List α} (h : l.IsChain R)
    (himp : ∀ i ∈ l.dropLast, ∀ j, R i j → S i j) : l.IsChain S := by
  induction l with
  | nil => exact .nil
  | cons i l ih =>
      cases l with
      | nil => exact .singleton i
      | cons j l =>
          obtain ⟨hij, hrest⟩ := List.isChain_cons_cons.1 h
          rw [List.dropLast_cons_cons] at himp
          refine List.isChain_cons_cons.2 ⟨himp i (List.mem_cons_self ..) j hij, ih hrest ?_⟩
          exact fun k hk => himp k (List.mem_cons_of_mem _ hk)

/-- The last element of a list without repetitions is not in front of itself. -/
theorem ne_getLast_of_mem_dropLast {l : List Nat} {last i : Nat} (hnodup : l.Nodup)
    (hlast : l.getLast? = some last) (hi : i ∈ l.dropLast) : i ≠ last := by
  obtain ⟨init, rfl⟩ := List.getLast?_eq_some_iff.1 hlast
  rw [List.dropLast_concat] at hi
  rintro rfl
  exact (List.nodup_append.1 hnodup).2.2 i hi i (List.mem_singleton_self i) rfl

/-- What the walk over the chain of a request finds: all but the last descriptor have the NEXT flag
    and are direct. -/
structure Walked (desc : Nat → VringDesc) (ids : List Nat) (last : Nat) : Prop where
  getLast : ids.getLast? = some last
  linked : ids.IsChain (Links desc)
  inner : ∀ i ∈ ids.dropLast, (desc i).hasNext = true ∧ (desc i).isIndirect = false
  hasNext : (desc last).hasNext = false

theorem clearIndirect_direct {indirect : List IndirectDescTable} {desc : Nat → VringDesc} {i : Nat}
    (h : (desc i).isIndirect = false) : clearIndirect indirect desc i = .ok (indirect, desc) := by
  rw [clearIndirect, h]
  rfl

theorem lastOfChain_direct {indirect : List IndirectDescTable} {desc : Nat → VringDesc}
    {ids : List Nat} {bufs : List AddrSize} {first fuel c : Nat}
    (h : DirectChain desc ids bufs) (hfirst : ids.head? = some first) (hfuel : ids.length ≤ fuel) :
    ∃ last, lastOfChain fuel indirect desc first c =
        .ok (indirect, desc, last, c + (ids.length - 1)) ∧ Walked desc ids last := by
  induction h using DirectChain.induction_on generalizing first fuel c with
  | last i vp h =>
      obtain rfl : i = first := by simpa using hfirst
      cases fuel with
      | zero => simp at hfuel
      | succ fuel =>
          refine ⟨i, ?_, rfl, .singleton i, ?_, h.1⟩
          · rw [lastOfChain, h.1]
            rfl
          · intro k hk
            cases hk
  | next i j ids vp bufs h hrest ih =>
      obtain rfl : i = first := by simpa using hfirst
      cases fuel with
      | zero => simp at hfuel
      | succ fuel =>
          obtain ⟨hnext, hdirect, hlink, -⟩ := (directChain_next.1 h).1
          obtain ⟨last, hrun, hwalked⟩ := ih (c := c + 1) rfl (by simpa using hfuel)
          refine ⟨last, ?_, ?_, ?_, ?_, hwalked.hasNext⟩
          · rw [lastOfChain, hnext, if_pos rfl, clearIndirect_direct hdirect, ok_bind]
            dsimp only
            rw [hlink, hrun]
            simp only [List.length_cons]
            congr 4
            omega
          · rw [List.getLast?_cons_cons]
            exact hwalked.getLast
          · exact List.isChain_cons_cons.2 ⟨hlink, hwalked.linked⟩
          · intro k hk
            rw [List.dropLast_cons_cons] at hk
            rcases List.mem_cons.1 hk with rfl | hk
            · exact ⟨hnext, hdirect⟩
            · exact hwalked.inner k hk

theorem lastOfChain_request {indirect : List IndirectDescTable} {desc : Nat → VringDesc}
    {ids : List Nat} {bufs : List AddrSize} {first : Nat} (fuel count : Nat)
    (h : Request indirect desc ids bufs) (hfirst : ids.head? = some first)
    (hfuel : ids.length ≤ fuel) :
    ∃ last, lastOfChain fuel indirect desc first count =
        .ok (indirect, desc, last, count + (ids.length - 1)) ∧ Walked desc ids last := by
  rcases h with hd | ⟨i, rfl, hi⟩
  · exact lastOfChain_direct hd hfirst hfuel
  · obtain rfl : i = first := by simpa using hfirst
    cases fuel with
    | zero => simp at hfuel
    | succ fuel =>
        refine ⟨i, ?_, rfl, .singleton i, ?_, hi.hasNext⟩
        · rw [lastOfChain, hi.hasNext]
          rfl
        · intro k hk
          cases hk

/-- A descriptor that no longer refers to a table. -/
def VringDesc.unsetIndirect (vd : VringDesc) : VringDesc :=
  { vd with flags := vd.flags &&& ~~~vringDescFIndirect, len := 0 }

theorem unsetIndirect_hasNext (vd : VringDesc) : vd.unsetIndirect.hasNext = vd.hasNext := by
  simp only [VringDesc.hasNext, VringDesc.unsetIndirect, BitVec.and_assoc]
  have hmask : ~~~vringDescFIndirect &&& vringDescFNext = vringDescFNext := by decide
  rw [hmask]

/-- The table of an outstanding request is found and in use, so it is cleared. -/
theorem clearIndirect_indirect {indirect : List IndirectDescTable}
    {refs : Nat → Nat → Nat → Prop} (desc : Nat → VringDesc) {k i : Nat} {bufs : List AddrSize}
    (htables : TablesInv indirect refs) (h : IndirectDesc indirect (desc i) bufs)
    (href : refs k i (desc i).addr) :
    ∃ l₁ t l₂, indirect = l₁ ++ t :: l₂ ∧ t.paddr = (desc i).addr ∧
      clearIndirect indirect desc i = .ok (l₁ ++ { t with inUse := false } :: l₂,
        Function.update desc i (desc i).unsetIndirect) := by
  have hlen : 0 < (desc i).len := by
    rw [h.len]
    have := List.length_pos_iff.2 h.nonempty
    omega
  cases hfind : indirect.findIdx? (·.paddr == (desc i).addr) with
  | none =>
      obtain ⟨t, ht, haddr, -⟩ := h.table
      exact absurd haddr (by simpa using List.findIdx?_eq_none_iff.1 hfind t ht)
  | some n =>
      obtain ⟨l₁, t, l₂, rfl, ht, rfl⟩ := findIdx?_split hfind
      have hpaddr : t.paddr = (desc i).addr := by simpa using ht
      have hused : t.inUse = true := (htables.inUse t (by simp)).2 ⟨k, i, hpaddr ▸ href⟩
      refine ⟨l₁, t, l₂, rfl, hpaddr, ?_⟩
      rw [clearIndirect, h.isIndirect, if_pos rfl, clearIndirectTable, assert_bind hlen,
        assert_bind h.isIndirect, hfind]
      dsimp only
      rw [assert_bind (by simpa using hused), ok_bind]
      simp [VringDesc.unsetIndirect, List.modify_eq_take_drop]

end Yaos
