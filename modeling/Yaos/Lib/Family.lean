import Yaos.Lib.Chain

set_option autoImplicit false

/-! # Several chains in one pool of nodes

Programs move nodes between lists that share one link field: a free list, a pending list, queues. A
`Family` is such a set of lists, one for each index. `place i` is the list that node `i` is on, so that
no node can be on two lists, and the nodes that are on none are those with `place i = none`. The lemmas
say what a program may do with one list and that this leaves the others as they are. -/

namespace Chains

variable {ι κ : Type} {next : ι → Option ι} {heads : κ → Option ι} {lists : κ → List ι}
  {place : ι → Option κ} {i j : ι} {k : κ}

/-- Lists that share their links: the list `k` is chained from its head, and `place` says where an
    element is. -/
structure Family (next : ι → Option ι) (heads : κ → Option ι) (lists : κ → List ι)
    (place : ι → Option κ) : Prop where
  chain : ∀ k, Chain next (heads k) (lists k)
  mem : ∀ k i, i ∈ lists k ↔ place i = some k

/-- The place of a node that is not on the list `k`. -/
theorem Family.place_ne (h : Family next heads lists place) (hi : i ∉ lists k) :
    place i ≠ some k := fun heq => hi ((h.mem k i).2 heq)

variable [DecidableEq ι] [DecidableEq κ]

omit [DecidableEq κ] in
/-- A node on no list may change its link. -/
theorem Family.write (h : Family next heads lists place) (hi : place i = none) (link : Option ι) :
    Family (Function.update next i link) heads lists place := by
  refine ⟨fun k => (h.chain k).congr fun j hj => ?_, h.mem⟩
  have hji : j ≠ i := by
    rintro rfl
    rw [h.mem, hi] at hj
    cases hj
  rw [Function.update_of_ne hji]

omit [DecidableEq ι] in
/-- One list is replaced: `ids` is a chain after the change, which touches only nodes of that list and
    nodes that are on none. -/
theorem Family.replace {next' : ι → Option ι} {place' : ι → Option κ} {ids : List ι}
    {head : Option ι} (h : Family next heads lists place) (hchain : Chain next' head ids)
    (hnext : ∀ i, place i ≠ none → place i ≠ some k → next' i = next i)
    (hids : ∀ i, i ∈ ids ↔ place' i = some k)
    (hplace : ∀ i k', k' ≠ k → (place' i = some k' ↔ place i = some k')) :
    Family next' (Function.update heads k head) (Function.update lists k ids) place' := by
  refine ⟨fun k' => ?_, fun k' i => ?_⟩
  · by_cases hk : k' = k
    · subst hk
      rw [Function.update_self, Function.update_self]
      exact hchain
    · rw [Function.update_of_ne hk, Function.update_of_ne hk]
      refine (h.chain k').congr fun i hi => ?_
      rw [h.mem] at hi
      refine hnext i (by simp [hi]) ?_
      rw [hi]
      exact fun heq => hk (Option.some.inj heq)
  · by_cases hk : k' = k
    · subst hk
      rw [Function.update_self]
      exact hids i
    · rw [Function.update_of_ne hk, h.mem]
      exact (hplace i k' hk).symm

/-- `i->next = head; head = i;`. -/
theorem Family.push (h : Family next heads lists place) (hi : place i = none) :
    Family (Function.update next i (heads k)) (Function.update heads k (some i))
      (Function.update lists k (i :: lists k)) (Function.update place i (some k)) := by
  have hnot : ∀ k', i ∉ lists k' := fun k' hmem => by
    rw [h.mem, hi] at hmem
    cases hmem
  refine h.replace ⟨rfl, ?_⟩ (fun j hj _ => ?_) (fun j => ?_) fun j k' hk => ?_
  · rw [Function.update_self]
    refine (h.chain k).congr fun j hj => ?_
    have hji : j ≠ i := fun heq => hnot k (heq ▸ hj)
    rw [Function.update_of_ne hji]
  · have hji : j ≠ i := fun heq => hj (heq ▸ hi)
    rw [Function.update_of_ne hji]
  · by_cases hji : j = i
    · subst hji
      simp
    · rw [Function.update_of_ne hji, List.mem_cons, h.mem]
      simp [hji]
  · by_cases hji : j = i
    · subst hji
      rw [Function.update_self, hi]
      exact iff_of_false (fun heq => hk (Option.some.inj heq).symm) (by simp)
    · rw [Function.update_of_ne hji]

/-- `head = last->next;`: the nodes `pre`, of which `last` is the last, leave the list. -/
theorem Family.drop {pre post : List ι} {last : ι} (h : Family next heads lists place)
    (hlist : lists k = pre ++ last :: post) :
    Family next (Function.update heads k (next last)) (Function.update lists k post)
      fun i => if i ∈ pre ++ [last] then none else place i := by
  have hchain := h.chain k
  rw [hlist] at hchain
  have hnodup := hchain.nodup
  have hsplit : ∀ i, i ∈ lists k ↔ i ∈ pre ++ [last] ∨ i ∈ post := by
    intro i
    rw [hlist]
    simp [or_assoc]
  have hdisjoint : ∀ i, i ∈ post → i ∉ pre ++ [last] := by
    intro i hpost hpre
    have hmove : pre ++ last :: post = pre ++ [last] ++ post := by simp
    rw [hmove] at hnodup
    exact (List.nodup_append.1 hnodup).2.2 i hpre i hpost rfl
  refine h.replace hchain.after (fun _ _ _ => rfl) (fun i => ?_) fun i k' hk => ?_
  · by_cases hpre : i ∈ pre ++ [last]
    · rw [if_pos hpre]
      exact iff_of_false (fun hpost => hdisjoint i hpost hpre) (by simp)
    · rw [if_neg hpre, ← h.mem, hsplit]
      simp only [hpre, false_or]
  · by_cases hpre : i ∈ pre ++ [last]
    · rw [if_pos hpre]
      have hplace : place i = some k := (h.mem k i).1 ((hsplit i).2 (.inl hpre))
      rw [hplace]
      exact iff_of_false (by simp) fun heq => hk (Option.some.inj heq).symm
    · rw [if_neg hpre]

/-- `head = head->next;`. -/
theorem Family.pop {rest : List ι} (h : Family next heads lists place) (hlist : lists k = i :: rest) :
    heads k = some i ∧ Family next (Function.update heads k (next i)) (Function.update lists k rest)
      (Function.update place i none) := by
  have hchain := h.chain k
  rw [hlist] at hchain
  refine ⟨hchain.1, ?_⟩
  have hsplit : lists k = [] ++ i :: rest := hlist
  have hdrop := h.drop hsplit
  have hplace : (fun j => if j ∈ [] ++ [i] then none else place j) = Function.update place i none := by
    funext j
    by_cases hj : j = i
    · subst hj
      simp
    · simp [hj]
  rw [hplace] at hdrop
  exact hdrop

/-- `i->next = j->next; j->next = i;`. -/
theorem Family.insert {pre post : List ι} (h : Family next heads lists place)
    (hlist : lists k = pre ++ j :: post) (hi : place i = none) :
    Family (Function.update (Function.update next i (next j)) j (some i)) heads
      (Function.update lists k (pre ++ j :: i :: post)) (Function.update place i (some k)) := by
  have hchain := h.chain k
  rw [hlist] at hchain
  have hnodup := hchain.nodup
  have hmem : ∀ u, u ∈ lists k ↔ u ∈ pre ∨ u = j ∨ u ∈ post := by
    intro u
    rw [hlist]
    simp
  have hnot : i ∉ lists k := fun hin => by
    rw [h.mem, hi] at hin
    cases hin
  rw [hmem, not_or, not_or] at hnot
  have hjk : place j = some k := (h.mem k j).1 ((hmem j).2 (.inr (.inl rfl)))
  obtain ⟨-, hrest, hdisjoint⟩ := List.nodup_append.1 hnodup
  have hheads : heads = Function.update heads k (heads k) := (Function.update_eq_self k heads).symm
  rw [hheads]
  refine h.replace (Chain.relink hchain (fun u hu => ?_) ⟨Function.update_self .., ?_⟩)
    (fun u hu huk => ?_) (fun u => ?_) fun u k' hk => ?_
  · have huj : u ≠ j := fun heq => hdisjoint u hu j (by simp) heq
    have hui : u ≠ i := fun heq => hnot.1 (heq ▸ hu)
    rw [Function.update_of_ne huj, Function.update_of_ne hui]
  · rw [Function.update_of_ne hnot.2.1, Function.update_self]
    refine hchain.after.congr fun u hu => ?_
    have huj : u ≠ j := fun heq => (List.nodup_cons.1 hrest).1 (heq ▸ hu)
    have hui : u ≠ i := fun heq => hnot.2.2 (heq ▸ hu)
    rw [Function.update_of_ne huj, Function.update_of_ne hui]
  · have huj : u ≠ j := fun heq => huk (heq ▸ hjk)
    have hui : u ≠ i := fun heq => hu (heq ▸ hi)
    rw [Function.update_of_ne huj, Function.update_of_ne hui]
  · by_cases hui : u = i
    · subst hui
      simp
    · rw [Function.update_of_ne hui, ← h.mem, hmem]
      simp [hui]
  · by_cases hui : u = i
    · subst hui
      rw [Function.update_self, hi]
      exact iff_of_false (fun heq => hk (Option.some.inj heq).symm) (by simp)
    · rw [Function.update_of_ne hui]

omit [DecidableEq ι] in
/-- `head' = head; head = NULL;` with nothing on the second list before. -/
theorem Family.move {k' : κ} (h : Family next heads lists place) (hne : k' ≠ k)
    (hempty : heads k' = none) :
    Family next (Function.update (Function.update heads k none) k' (heads k))
      (Function.update (Function.update lists k []) k' (lists k))
      fun i => if place i = some k then some k' else place i := by
  have hnone : lists k' = [] := by
    have hchain := h.chain k'
    rw [hempty] at hchain
    cases hk : lists k' with
    | nil => rfl
    | cons i ids =>
        rw [hk] at hchain
        cases hchain.1
  have hnot : ∀ i, place i ≠ some k' := fun i => h.place_ne (by simp [hnone])
  refine ⟨fun l => ?_, fun l i => ?_⟩
  · by_cases hl' : l = k'
    · subst hl'
      rw [Function.update_self, Function.update_self]
      exact h.chain k
    · rw [Function.update_of_ne hl', Function.update_of_ne hl']
      by_cases hl : l = k
      · subst hl
        rw [Function.update_self, Function.update_self]
        rfl
      · rw [Function.update_of_ne hl, Function.update_of_ne hl]
        exact h.chain l
  · by_cases hl' : l = k'
    · subst hl'
      rw [Function.update_self, h.mem]
      split
      case isTrue hi => simp [hi]
      case isFalse hi => simp [hi, hnot i]
    · rw [Function.update_of_ne hl']
      by_cases hl : l = k
      · subst hl
        rw [Function.update_self]
        refine iff_of_false (by simp) ?_
        split
        · exact fun heq => hl' (Option.some.inj heq).symm
        · assumption
      · rw [Function.update_of_ne hl, h.mem]
        split
        case isTrue hi => simp [hi, Ne.symm hl, Ne.symm hl']
        case isFalse => rfl

end Chains
