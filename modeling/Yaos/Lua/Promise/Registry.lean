import Yaos.Lib.Chain
import Yaos.Lua.Promise.Proofs

set_option autoImplicit false

/-! # The free slots of the registry

As long as every slot is given back once and by its holder, the free slots are those that nobody holds,
and `luaL_ref` gives out one of them. -/

namespace Yaos.Lua

open Chains

/-- The slot that a free one leads to. -/
def Value.link (v : Value) : Option Nat := if v.toInteger = 0 then none else some v.toInteger

/-- The slots in `free` are the free ones, in the order in which they are given out. -/
structure Held (s : State) (free : List Nat) : Prop where
  chain : Chain (fun r => (s.slots r).link) (s.slots 0).link free
  mem : ∀ r, r ∈ free ↔ 0 < r ∧ r ≤ s.len ∧ s.owner r = none
  owned : ∀ r, s.owner r ≠ none → 0 < r ∧ r ≤ s.len

section Held

variable {s : State} {free : List Nat} {o : Owner} {r : Nat} {v : Value}

theorem use_owned (h : s.owner r = some o) : s.use o r = s := by
  rw [State.use, if_pos h]

/-- A slot that is taken was free; the others keep their values. -/
structure Taken (s s' : State) (o : Owner) (r : Nat) (v : Value) : Prop where
  held : ∃ free, Held s' free
  new : s.owner r = none
  owner : s'.owner = Function.update s.owner r (some o)
  value : s'.slots r = v
  others : ∀ t, s.owner t ≠ none → s'.slots t = s.slots t
  misuses : s'.misuses = s.misuses

theorem Held.ref (h : Held s free) (o : Owner) (v : Value) :
    Taken s (s.ref o v).2 o (s.ref o v).1 v := by
  have hchain := h.chain
  rw [State.ref]
  dsimp only
  split
  case isTrue hfree =>
      -- the head of the free list is taken out, as `luaL_ref` does
      generalize hk : (s.slots 0).toInteger = k at hfree
      have hlink : (s.slots 0).link = some k := by rw [Value.link, hk, if_neg hfree]
      obtain ⟨rest, rfl⟩ : ∃ rest, free = k :: rest := by
        cases free with
        | nil => exact absurd (hlink.symm.trans hchain) (by simp)
        | cons i rest =>
            obtain rfl := Option.some.inj (hlink.symm.trans hchain.1)
            exact ⟨rest, rfl⟩
      obtain ⟨hpos, hle, hnone⟩ := (h.mem k).1 (by simp)
      have hnodup := List.nodup_cons.1 hchain.nodup
      have hslots : ∀ t, t ≠ k → t ≠ 0 →
          Function.update (Function.update s.slots 0 (s.slots k)) k v t = s.slots t := fun t ht ht0 => by
        rw [Function.update_of_ne ht, Function.update_of_ne ht0]
      have hk0 : (0 : Nat) ≠ k := Nat.ne_of_lt hpos
      refine ⟨⟨rest, ?_, fun t => ?_, fun t ht => ?_⟩, hnone, rfl, Function.update_self .., fun t ht => ?_,
        rfl⟩
      · show Chain (fun t => (Function.update (Function.update s.slots 0 (s.slots k)) k v t).link)
          (Function.update (Function.update s.slots 0 (s.slots k)) k v 0).link rest
        rw [Function.update_of_ne hk0, Function.update_self]
        refine hchain.2.congr fun t ht => ?_
        have ht0 : t ≠ 0 := Nat.ne_of_gt ((h.mem t).1 (by simp [ht])).1
        have htk : t ≠ k := fun heq => hnodup.1 (heq ▸ ht)
        rw [hslots t htk ht0]
      · show t ∈ rest ↔ 0 < t ∧ t ≤ s.len ∧ Function.update s.owner k (some o) t = none
        have hmem := h.mem t
        by_cases htk : t = k
        · subst htk
          simp [hnodup.1]
        · rw [Function.update_of_ne htk, ← hmem]
          simp [htk]
      · have ht : Function.update s.owner k (some o) t ≠ none := ht
        by_cases htk : t = k
        · subst htk
          exact ⟨hpos, hle⟩
        · rw [Function.update_of_ne htk] at ht
          exact h.owned t ht
      · have ht0 : t ≠ 0 := Nat.ne_of_gt (h.owned t ht).1
        have htk : t ≠ k := fun heq => ht (heq ▸ hnone)
        exact hslots t htk ht0
  case isFalse hfree =>
      rw [not_not] at hfree
      have hlink : (s.slots 0).link = none := by rw [Value.link, if_pos hfree]
      obtain rfl : free = [] := by
        cases free with
        | nil => rfl
        | cons i rest => exact absurd (hlink.symm.trans hchain.1) (by simp)
      -- the list is empty: the slot behind the last one is new
      have hnew : s.owner (s.len + 1) = none := by
        by_contra hne
        exact Nat.not_succ_le_self _ (h.owned _ hne).2
      refine ⟨⟨[], ?_, fun t => ?_, fun t ht => ?_⟩, hnew, rfl, Function.update_self .., fun t ht => ?_,
        rfl⟩
      · show (Function.update s.slots (s.len + 1) v 0).link = none
        rw [Function.update_of_ne (by omega)]
        exact hlink
      · show t ∈ [] ↔ 0 < t ∧ t ≤ s.len + 1 ∧ Function.update s.owner (s.len + 1) (some o) t = none
        have hmem := h.mem t
        by_cases htk : t = s.len + 1
        · subst htk
          simp
        · rw [Function.update_of_ne htk]
          simp only [List.not_mem_nil, false_iff, not_and] at hmem ⊢
          intro hpos hle
          exact hmem hpos (by omega)
      · have ht : Function.update s.owner (s.len + 1) (some o) t ≠ none := ht
        by_cases htk : t = s.len + 1
        · subst htk
          exact ⟨Nat.succ_pos _, Nat.le_refl _⟩
        · rw [Function.update_of_ne htk] at ht
          exact ⟨(h.owned t ht).1, Nat.le_succ_of_le (h.owned t ht).2⟩
      · have htk : t ≠ s.len + 1 := fun heq => ht (heq ▸ hnew)
        exact Function.update_of_ne htk ..

/-- A slot is given back by its holder. -/
theorem Held.unref (h : Held s free) (hr : s.owner r = some o) :
    Held (s.unref o r) (r :: free) ∧ (s.unref o r).owner = Function.update s.owner r none ∧
      (∀ t, s.owner t ≠ none → t ≠ r → (s.unref o r).slots t = s.slots t) ∧
      (s.unref o r).misuses = s.misuses := by
  obtain ⟨hpos, hle⟩ := h.owned r (by simp [hr])
  have hnot : r ∉ free := fun hmem => by
    rw [h.mem, hr] at hmem
    cases hmem.2.2
  have hother : ∀ t, t ≠ r → t ≠ 0 →
      Function.update (Function.update s.slots r (s.slots 0)) 0 (.num r) t = s.slots t := by
    intro t htr ht0
    rw [Function.update_of_ne ht0, Function.update_of_ne htr]
  rw [State.unref, use_owned hr]
  refine ⟨⟨⟨?_, ?_⟩, fun t => ?_, fun t ht => ?_⟩, rfl, fun t ht htr => ?_, rfl⟩
  · show (Function.update (Function.update s.slots r (s.slots 0)) 0 (.num r) 0).link = some r
    rw [Function.update_self]
    exact if_neg (Nat.ne_of_gt hpos)
  · show Chain (fun t => (Function.update (Function.update s.slots r (s.slots 0)) 0 (.num r) t).link)
      (Function.update (Function.update s.slots r (s.slots 0)) 0 (.num r) r).link free
    rw [Function.update_of_ne (Nat.ne_of_gt hpos), Function.update_self]
    refine h.chain.congr fun t ht => ?_
    have htr : t ≠ r := fun heq => hnot (heq ▸ ht)
    rw [hother t htr (Nat.ne_of_gt ((h.mem t).1 ht).1)]
  · show t ∈ r :: free ↔ 0 < t ∧ t ≤ s.len ∧ Function.update s.owner r none t = none
    by_cases htr : t = r
    · subst htr
      simp [hpos, hle]
    · rw [Function.update_of_ne htr, ← h.mem]
      simp [htr]
  · have ht : Function.update s.owner r none t ≠ none := ht
    by_cases htr : t = r
    · subst htr
      rw [Function.update_self] at ht
      exact absurd rfl ht
    · rw [Function.update_of_ne htr] at ht
      exact h.owned t ht
  · exact hother t htr (Nat.ne_of_gt (h.owned t ht).1)

theorem Held.rawseti (h : Held s free) (hr : s.owner r = some o) (v : Value) :
    Held (s.rawseti o r v) free ∧ (s.rawseti o r v).owner = s.owner ∧
      (s.rawseti o r v).slots = Function.update s.slots r v ∧
      (s.rawseti o r v).misuses = s.misuses := by
  obtain ⟨hpos, hle⟩ := h.owned r (by simp [hr])
  have hnot : r ∉ free := fun hmem => by
    rw [h.mem, hr] at hmem
    cases hmem.2.2
  rw [State.rawseti, use_owned hr]
  refine ⟨⟨?_, h.mem, h.owned⟩, rfl, rfl, rfl⟩
  show Chain (fun t => (Function.update s.slots r v t).link) (Function.update s.slots r v 0).link free
  rw [Function.update_of_ne (Nat.ne_of_lt hpos)]
  refine h.chain.congr fun t ht => ?_
  have htr : t ≠ r := fun heq => hnot (heq ▸ ht)
  rw [Function.update_of_ne htr]

end Held

end Yaos.Lua
