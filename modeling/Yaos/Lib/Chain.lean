import Mathlib.Data.List.Nodup
import Mathlib.Logic.Function.Basic
import Mathlib.Tactic.Cases

set_option autoImplicit false

/-! # Singly linked chains in a pool of nodes

A pool of nodes is addressed by identifiers of a type `ι`; `next i` is the link stored in node
`i`. `Chain next head ids` says that following the links from `head` visits exactly the nodes
`ids`, in this order, and then ends. Everything a list-manipulating program needs is stated here
once: what a traversal returns, and how a chain changes when one link is rewritten.

The two traversals carry a step budget. A traversal that does not change any link and makes more
steps than the pool has nodes is going round a cycle, so `none` stands for a loop that never ends;
`walk_eq_find` and `advance_eq` show that this never happens on a chain. -/

namespace Chains

variable {ι : Type} {next next' : ι → Option ι}

/-- Following `next` from `head` visits exactly `ids`, then ends. -/
def Chain (next : ι → Option ι) : Option ι → List ι → Prop
  | head, [] => head = none
  | head, i :: ids => head = some i ∧ Chain next (next i) ids

@[simp] theorem chain_nil {head : Option ι} : Chain next head [] ↔ head = none := Iff.rfl

@[simp] theorem chain_cons {head : Option ι} {i : ι} {ids : List ι} :
    Chain next head (i :: ids) ↔ head = some i ∧ Chain next (next i) ids := Iff.rfl

theorem Chain.head_eq {head : Option ι} {ids : List ι} (h : Chain next head ids) :
    head = ids.head? := by
  cases ids with
  | nil => exact h
  | cons i ids => exact h.1

/-- The links determine the chain. -/
theorem Chain.unique {head : Option ι} {ids ids' : List ι} (h : Chain next head ids)
    (h' : Chain next head ids') : ids = ids' := by
  induction ids generalizing head ids' with
  | nil =>
      cases ids' with
      | nil => rfl
      | cons j js =>
          rw [chain_nil] at h
          exact absurd (h.symm.trans h'.1) (by simp)
  | cons i is ih =>
      cases ids' with
      | nil =>
          rw [chain_nil] at h'
          exact absurd (h'.symm.trans h.1) (by simp)
      | cons j js =>
          have hij : i = j := Option.some.inj (h.1.symm.trans h'.1)
          subst hij
          rw [ih h.2 h'.2]

/-- The chain after one of its nodes. -/
theorem Chain.after {head : Option ι} {pre post : List ι} {i : ι}
    (h : Chain next head (pre ++ i :: post)) : Chain next (next i) post := by
  induction pre generalizing head with
  | nil => exact h.2
  | cons j js ih => exact ih h.2

/-- A chain never visits a node twice: a second visit would make the rest of the chain a proper
    part of itself. -/
theorem Chain.nodup {head : Option ι} {ids : List ι} (h : Chain next head ids) : ids.Nodup := by
  induction ids generalizing head with
  | nil => exact List.nodup_nil
  | cons i is ih =>
      refine List.nodup_cons.2 ⟨fun hmem => ?_, ih h.2⟩
      obtain ⟨pre, post, rfl⟩ := List.append_of_mem hmem
      have heq : pre ++ i :: post = post := h.2.unique h.2.after
      have hlen := congrArg List.length heq
      simp at hlen
      omega

/-- Only the links of the visited nodes matter. -/
theorem Chain.congr {head : Option ι} {ids : List ι} (h : Chain next head ids)
    (heq : ∀ i ∈ ids, next' i = next i) : Chain next' head ids := by
  induction ids generalizing head with
  | nil => exact h
  | cons i is ih =>
      refine ⟨h.1, ?_⟩
      rw [heq i (List.mem_cons_self ..)]
      exact ih h.2 fun j hj => heq j (List.mem_cons_of_mem _ hj)

/-- Rewriting the link of a visited node replaces everything behind it. -/
theorem Chain.relink {head : Option ι} {pre post rest : List ι} {i : ι}
    (h : Chain next head (pre ++ i :: post)) (hpre : ∀ j ∈ pre, next' j = next j)
    (hrest : Chain next' (next' i) rest) : Chain next' head (pre ++ i :: rest) := by
  induction pre generalizing head with
  | nil => exact ⟨h.1, hrest⟩
  | cons j js ih =>
      refine ⟨h.1, ?_⟩
      rw [hpre j (List.mem_cons_self ..)]
      exact ih h.2 fun k hk => hpre k (List.mem_cons_of_mem _ hk)

/-! ## Traversals -/

/-- `while (p && !stop(p)) p = p->next;` -/
def walk (next : ι → Option ι) (stop : ι → Bool) : Nat → Option ι → Option (Option ι)
  | _, none => some none
  | 0, some _ => none
  | fuel + 1, some i => if stop i then some (some i) else walk next stop fuel (next i)

/-- `while (p->next && go(p->next)) p = p->next;` -/
def advance (next : ι → Option ι) (go : ι → Bool) : Nat → ι → Option ι
  | 0, _ => none
  | fuel + 1, i =>
      match next i with
      | none => some i
      | some j => if go j then advance next go fuel j else some i

/-- Following `next` from `head` comes to `i`. -/
inductive Visits (next : ι → Option ι) : Option ι → ι → Prop
  | here (i : ι) : Visits next (some i) i
  | there {i j : ι} : Visits next (next i) j → Visits next (some i) j

theorem Visits.trans {head : Option ι} {i j : ι} (h : Visits next head i)
    (h' : Visits next (some i) j) : Visits next head j := by
  induction h with
  | here i => exact h'
  | there _ ih => exact .there (ih h')

/-- A chain that ends from a node on ends from wherever that node is visited. -/
theorem Visits.chain {head : Option ι} {i : ι} {ids : List ι} (h : Visits next head i)
    (hchain : Chain next (some i) ids) : ∃ ids', Chain next head ids' := by
  induction h with
  | here i => exact ⟨ids, hchain⟩
  | @there i j _ ih =>
      obtain ⟨ids', hids'⟩ := ih hchain
      exact ⟨i :: ids', rfl, hids'⟩

/-- A walk that finds a node has come to it, whatever the links are. -/
theorem visits_of_walk_some {stop : ι → Bool} {fuel : Nat} {head : Option ι} {i : ι}
    (h : walk next stop fuel head = some (some i)) : Visits next head i ∧ stop i = true := by
  induction fuel generalizing head with
  | zero => cases head <;> cases h
  | succ fuel ih =>
      cases head with
      | none => cases h
      | some j =>
          rw [walk] at h
          split at h
          · rename_i hstop
            cases h
            exact ⟨.here _, hstop⟩
          · exact ⟨.there (ih h).1, (ih h).2⟩

/-- A walk that ends without a node has been stopped by none it could come to. -/
theorem not_stop_of_walk_none {stop : ι → Bool} {fuel : Nat} {head : Option ι} {i : ι}
    (h : walk next stop fuel head = some none) (hi : Visits next head i) : stop i = false := by
  induction fuel generalizing head with
  | zero => cases hi <;> cases h
  | succ fuel ih =>
      cases hi with
      | here =>
          rw [walk] at h
          split at h
          · cases h
          · rename_i hstop
            exact Bool.eq_false_iff.2 hstop
      | there hi =>
          rw [walk] at h
          split at h
          · cases h
          · exact ih h hi

/-- A walk that goes through some node and ends has come to a last node. -/
theorem exists_last_of_walk_none {stop : ι → Bool} {fuel : Nat} {i : ι}
    (h : walk next stop fuel (some i) = some none) :
    ∃ j, Visits next (some i) j ∧ next j = none := by
  induction fuel generalizing i with
  | zero => cases h
  | succ fuel ih =>
      rw [walk] at h
      split at h
      · cases h
      · cases hnext : next i with
        | none => exact ⟨i, .here i, hnext⟩
        | some j =>
            rw [hnext] at h
            obtain ⟨k, hk, hlast⟩ := ih h
            exact ⟨k, .there (hnext ▸ hk), hlast⟩

/-- On a chain, exactly its nodes are visited. -/
theorem Chain.visits_iff {head : Option ι} {ids : List ι} (h : Chain next head ids) {i : ι} :
    Visits next head i ↔ i ∈ ids := by
  induction ids generalizing head with
  | nil =>
      rw [chain_nil] at h
      subst h
      exact iff_of_false (fun hv => nomatch hv) List.not_mem_nil
  | cons j js ih =>
      obtain ⟨rfl, hrest⟩ := h
      rw [List.mem_cons, ← ih hrest]
      constructor
      · rintro (_ | hv)
        · exact .inl rfl
        · exact .inr hv
      · rintro (rfl | hv)
        · exact .here _
        · exact .there hv

/-- On a chain, a walk finds the first node that stops it. -/
theorem walk_eq_find {stop : ι → Bool} {fuel : Nat} {head : Option ι} {ids : List ι}
    (h : Chain next head ids) (hfuel : ids.length ≤ fuel) :
    walk next stop fuel head = some (ids.find? stop) := by
  induction ids generalizing head fuel with
  | nil =>
      rw [chain_nil] at h
      subst h
      cases fuel <;> rfl
  | cons i is ih =>
      obtain ⟨rfl, hrest⟩ := h
      cases fuel with
      | zero => simp at hfuel
      | succ fuel =>
          rw [walk, List.find?_cons]
          by_cases hs : stop i = true
          · simp [hs]
          · simp only [hs]
            exact ih hrest (by simpa using hfuel)

/-- A walk that finds a node splits the chain there, with no stopping node before it. -/
theorem find_split {stop : ι → Bool} {ids : List ι} {i : ι} (h : ids.find? stop = some i) :
    ∃ pre post, ids = pre ++ i :: post ∧ stop i = true ∧ ∀ j ∈ pre, stop j = false := by
  obtain ⟨hi, pre, post, hsplit, hpre⟩ := List.find?_eq_some_iff_append.1 h
  exact ⟨pre, post, hsplit, hi, fun j hj => by simpa using hpre j hj⟩

/-- On a chain, the nodes from which a node is still ahead are the ones before it. -/
theorem Chain.ahead_iff {head : Option ι} {pre post : List ι} {i j : ι}
    (h : Chain next head (pre ++ i :: post)) (hj : j ∈ pre ++ i :: post) :
    Visits next (next j) i ↔ j ∈ pre := by
  have hnodup := h.nodup
  constructor
  · intro hahead
    rcases List.mem_append.1 hj with hj | hj
    · exact hj
    · -- after `i` the chain does not come back to it
      exfalso
      obtain ⟨-, hi, -⟩ := List.nodup_append.1 hnodup
      obtain ⟨hi, -⟩ := List.nodup_cons.1 hi
      rcases List.mem_cons.1 hj with rfl | hj
      · exact hi (h.after.visits_iff.1 hahead)
      · obtain ⟨before, rest, rfl⟩ := List.append_of_mem hj
        have hrest : Chain next head ((pre ++ i :: before) ++ j :: rest) := by simpa using h
        exact hi (List.mem_append_right _ (List.mem_cons_of_mem _ (hrest.after.visits_iff.1 hahead)))
  · intro hj
    obtain ⟨before, rest, rfl⟩ := List.append_of_mem hj
    have hrest : Chain next head (before ++ j :: (rest ++ i :: post)) := by simpa using h
    exact hrest.after.visits_iff.2 (List.mem_append_right _ List.mem_cons_self)

/-- On a chain, the first node that stops a walk is the one with no such node before it. -/
theorem Chain.find_eq_some_iff {stop : ι → Bool} {head : Option ι} {ids : List ι} {i : ι}
    (h : Chain next head ids) (hi : i ∈ ids) (hstop : stop i = true) :
    ids.find? stop = some i ↔ ∀ j ∈ ids, Visits next (next j) i → stop j = false := by
  constructor
  · intro hfind j hj hahead
    obtain ⟨pre, post, rfl, -, hpre⟩ := find_split hfind
    exact hpre j ((h.ahead_iff hj).1 hahead)
  · intro hfirst
    obtain ⟨pre, post, rfl⟩ := List.append_of_mem hi
    refine List.find?_eq_some_iff_append.2 ⟨hstop, pre, post, rfl, fun j hj => ?_⟩
    have hj' : j ∈ pre ++ i :: post := List.mem_append_left _ hj
    rw [hfirst j hj' ((h.ahead_iff hj').2 hj)]
    rfl

/-- On a chain, `advance` stops at the last node of the run of nodes that satisfy `go`. -/
theorem advance_eq (go : ι → Bool) {fuel : Nat} {head : Option ι} {i : ι} {ids : List ι}
    (h : Chain next head (i :: ids)) (hfuel : ids.length < fuel) :
    advance next go fuel i = some ((i :: ids.takeWhile go).getLast (by simp)) := by
  induction ids generalizing head fuel i with
  | nil =>
      obtain ⟨-, hnil⟩ := h
      rw [chain_nil] at hnil
      cases fuel with
      | zero => simp at hfuel
      | succ fuel => simp [advance, hnil]
  | cons j js ih =>
      obtain ⟨-, hrest⟩ := h
      cases fuel with
      | zero => simp at hfuel
      | succ fuel =>
          rw [advance, hrest.1]
          by_cases hj : go j = true
          · simp only [hj, if_true, List.takeWhile_cons_of_pos hj]
            rw [ih hrest (by simpa using hfuel)]
            simp
          · simp [hj]

/-- `advance` splits the chain in front of the first node that stops it. -/
theorem advance_split (go : ι → Bool) {fuel : Nat} {head : Option ι} {i : ι} {ids : List ι}
    (h : Chain next head (i :: ids)) (hfuel : ids.length < fuel) :
    ∃ pre j, advance next go fuel i = some j ∧
      i :: ids = pre ++ j :: ids.dropWhile go ∧ i :: ids.takeWhile go = pre ++ [j] := by
  refine ⟨(i :: ids.takeWhile go).dropLast, _, advance_eq go h hfuel, ?_, ?_⟩
  · calc i :: ids = (i :: ids.takeWhile go) ++ ids.dropWhile go := by
          rw [List.cons_append, List.takeWhile_append_dropWhile]
      _ = _ := by
          conv_lhs => rw [← List.dropLast_append_getLast (l := i :: ids.takeWhile go) (by simp)]
          rw [List.append_assoc, List.singleton_append]
  · exact (List.dropLast_append_getLast (by simp)).symm

/-- Only the tests of the list's own members matter to where a list is cut. -/
theorem takeWhile_dropWhile_congr {go go' : ι → Bool} {ids : List ι}
    (h : ∀ i ∈ ids, go i = go' i) :
    ids.takeWhile go = ids.takeWhile go' ∧ ids.dropWhile go = ids.dropWhile go' := by
  induction ids with
  | nil => exact ⟨rfl, rfl⟩
  | cons i is ih =>
      obtain ⟨htake, hdrop⟩ := ih fun j hj => h j (List.mem_cons_of_mem _ hj)
      simp only [List.takeWhile_cons, List.dropWhile_cons, h i (List.mem_cons_self ..), htake, hdrop,
        and_self]

/-! ## Rewriting one link

`Function.update next x none` is the pool with the link of `x` taken away. -/

section Cut

variable [DecidableEq ι] {x y : ι} {head link : Option ι}

/-- Without its own link a node still has all that does not lie behind it. -/
theorem Visits.of_cut (h : Visits (Function.update next x none) head y) :
    Visits (Function.update next x link) head y := by
  induction h with
  | here i => exact .here i
  | @there i j hij ih =>
      by_cases hi : i = x
      · subst hi
        rw [Function.update_self] at hij
        cases hij
      · rw [Function.update_of_ne hi] at ih
        refine .there ?_
        rw [Function.update_of_ne hi]
        exact ih

/-- What is visited through a new link of `x` is visited without it, from the head or from the end
    of that link. -/
theorem Visits.cut_or (h : Visits (Function.update next x link) head y) :
    Visits (Function.update next x none) head y ∨ Visits (Function.update next x none) link y := by
  induction h with
  | here i => exact .inl (.here i)
  | @there i j hij ih =>
      by_cases hi : i = x
      · subst hi
        rw [Function.update_self] at ih
        exact .inr (ih.elim id id)
      · rw [Function.update_of_ne hi] at ih
        refine ih.imp_left fun hv => .there ?_
        rw [Function.update_of_ne hi]
        exact hv

theorem Visits.mono_cut (h : Visits (Function.update next x none) head y) : Visits next head y := by
  have hvisits : Visits (Function.update next x (next x)) head y := h.of_cut
  rwa [Function.update_eq_self] at hvisits

/-- No node needs its own link to be visited. -/
theorem Visits.self_cut (h : Visits next head x) : Visits (Function.update next x none) head x := by
  generalize hy : x = y at h
  induction h with
  | here i =>
      subst hy
      exact .here _
  | @there i j hij ih =>
      subst hy
      by_cases hi : i = x
      · subst hi
        exact .here _
      · refine .there ?_
        rw [Function.update_of_ne hi]
        exact ih rfl

/-- The link of a node that is not visited does not matter. -/
theorem visits_update_iff_of_not (hx : ¬ Visits next head x) :
    Visits (Function.update next x link) head y ↔ Visits next head y := by
  constructor
  · intro h
    induction h with
    | here i => exact .here i
    | @there i j hij ih =>
        have hi : i ≠ x := by
          rintro rfl
          exact hx (.here i)
        rw [Function.update_of_ne hi] at ih
        exact .there (ih fun hv => hx (.there hv))
  · intro h
    induction h with
    | here i => exact .here i
    | @there i j hij ih =>
        have hi : i ≠ x := by
          rintro rfl
          exact hx (.here i)
        refine .there ?_
        rw [Function.update_of_ne hi]
        exact ih fun hv => hx (.there hv)

/-- The nodes from `x` on are `x` and those behind its link, which need not be followed again. -/
theorem visits_some_iff :
    Visits next (some x) y ↔ y = x ∨ Visits (Function.update next x none) (next x) y := by
  constructor
  · rintro (_ | hv)
    · exact .inl rfl
    · rw [← Function.update_eq_self x next] at hv
      exact .inr (by simpa using hv.cut_or)
  · rintro (rfl | hv)
    · exact .here _
    · exact .there hv.mono_cut

/-- A node linked to one whose chain does not end has itself a chain that does not end. -/
theorem no_chain_of_link (h : ¬ ∃ ids, Chain next (some y) ids) :
    ¬ ∃ ids, Chain (Function.update next x (some y)) (some x) ids := by
  rintro ⟨ids, hids⟩
  have hnodup := hids.nodup
  cases ids with
  | nil => cases hids
  | cons i ids =>
      obtain ⟨heq, hrest⟩ := hids
      obtain rfl := Option.some.inj heq
      rw [Function.update_self] at hrest
      refine h ⟨ids, hrest.congr fun j hj => ?_⟩
      have hjx : j ≠ x := fun heq => (List.nodup_cons.1 hnodup).1 (heq ▸ hj)
      rw [Function.update_of_ne hjx]

end Cut

/-- Nodes whose links all lead back among them may lose their links: what is visited from another
    head is then among them or is still visited. -/
theorem Visits.of_closed {p : ι → Prop} {head : Option ι} {y : ι} (h : Visits next head y)
    (hclosed : ∀ i j, p i → Visits next (some i) j → p j)
    (hnext : ∀ i, ¬ p i → next' i = next i) : p y ∨ Visits next' head y := by
  induction h with
  | here i => exact .inr (.here i)
  | @there i j hij ih =>
      by_cases hi : p i
      · exact .inl (hclosed i j hi (.there hij))
      · refine ih.imp_right fun hv => .there ?_
        rw [hnext i hi]
        exact hv

/-! ## Chains with a pointer to the last link -/

/-- `tail` is the last node of the chain, or nothing for an empty one. -/
structure Queue (next : ι → Option ι) (head tail : Option ι) (ids : List ι) : Prop where
  chain : Chain next head ids
  tail_eq : tail = ids.getLast?

theorem Queue.empty : Queue next none none [] := ⟨rfl, rfl⟩

theorem Queue.congr {head tail : Option ι} {ids : List ι} (h : Queue next head tail ids)
    (heq : ∀ i ∈ ids, next' i = next i) : Queue next' head tail ids :=
  ⟨h.chain.congr heq, h.tail_eq⟩

theorem Queue.mem_of_tail {head : Option ι} {ids : List ι} {u : ι}
    (h : Queue next head (some u) ids) : u ∈ ids := List.mem_of_getLast? h.tail_eq.symm

section Append

variable [DecidableEq ι] {head : Option ι} {ids : List ι} {t u : ι}

/-- A node put into an empty queue. -/
theorem Queue.append_none (h : Queue next head none ids) :
    Queue (Function.update next t none) (some t) (some t) (ids ++ [t]) := by
  obtain rfl : ids = [] := List.getLast?_eq_none_iff.1 h.tail_eq.symm
  exact ⟨⟨rfl, Function.update_self ..⟩, rfl⟩

/-- A node put behind the last one. -/
theorem Queue.append_some (h : Queue next head (some u) ids) (ht : t ∉ ids) :
    Queue (Function.update (Function.update next t none) u (some t)) head (some t) (ids ++ [t]) := by
  obtain ⟨pre, rfl⟩ := List.getLast?_eq_some_iff.1 h.tail_eq.symm
  have hnodup := h.chain.nodup
  have hut : u ≠ t := fun heq => ht (by simp [heq])
  refine ⟨?_, by simp⟩
  rw [List.append_assoc]
  refine Chain.relink h.chain (fun j hj => ?_) ?_
  · have hju : j ≠ u := by
      rintro rfl
      exact (List.nodup_append.1 hnodup).2.2 j hj j (by simp) rfl
    have hjt : j ≠ t := fun heq => ht (by simp [← heq, hj])
    rw [Function.update_of_ne hju, Function.update_of_ne hjt]
  · refine ⟨Function.update_self .., ?_⟩
    rw [Function.update_of_ne hut.symm, Function.update_self]
    rfl

/-- A node put in front, with a queue behind it. -/
theorem Queue.cons {tail : Option ι} {i : ι} (h : Queue next head tail (i :: ids))
    (ht : t ∉ i :: ids) : Queue (Function.update next t head) (some t) tail (t :: i :: ids) := by
  refine ⟨⟨rfl, ?_⟩, h.tail_eq⟩
  rw [Function.update_self]
  refine h.chain.congr fun j hj => ?_
  have hjt : j ≠ t := fun heq => ht (heq ▸ hj)
  rw [Function.update_of_ne hjt]

end Append

end Chains
