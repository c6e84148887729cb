import Yaos.Alloc.HolePool

set_option autoImplicit false

/-! # What the hole-list operations do

One lemma for each operation of `HolePool.lean`, in terms of the two lists of nodes (`Rep`) and of
the address and size of each hole. On a well-formed pool no traversal runs for ever and no unlink
meets a corrupted list, so the only way an operation fails is the panic for lack of nodes. -/

namespace Yaos

open Chains Word

namespace HolePool

/-! ## Rewriting one node -/

@[simp] theorem modify_pfree (s : HolePool) (i : Nat) (f : HoleNode → HoleNode) :
    (s.modify i f).pfree = s.pfree := rfl

@[simp] theorem modify_phead (s : HolePool) (i : Nat) (f : HoleNode → HoleNode) :
    (s.modify i f).phead = s.phead := rfl

@[simp] theorem modify_nodes_self (s : HolePool) (i : Nat) (f : HoleNode → HoleNode) :
    (s.modify i f).nodes i = f (s.nodes i) := by simp [modify]

@[simp] theorem modify_nodes_ne (s : HolePool) {i j : Nat} (f : HoleNode → HoleNode) (h : j ≠ i) :
    (s.modify i f).nodes j = s.nodes j := by simp [modify, h]

@[simp] theorem spinLock_nodes (s : HolePool) : s.spinLock.nodes = s.nodes := rfl

@[simp] theorem spinLock_pfree (s : HolePool) : s.spinLock.pfree = s.pfree := rfl

@[simp] theorem spinLock_phead (s : HolePool) : s.spinLock.phead = s.phead := rfl

@[simp] theorem spinUnlock_nodes (s : HolePool) : s.spinUnlock.nodes = s.nodes := rfl

@[simp] theorem spinUnlock_pfree (s : HolePool) : s.spinUnlock.pfree = s.pfree := rfl

@[simp] theorem spinUnlock_phead (s : HolePool) : s.spinUnlock.phead = s.phead := rfl

/-- The pool's two lists: `free` are the unused nodes, `holes` the holes in list order. -/
structure Rep (s : HolePool) (free holes : List Nat) : Prop where
  pfree : Chain s.next s.pfree free
  phead : Chain s.next s.phead holes
  disj : ∀ i ∈ free, i ∉ holes

/-- Rewriting a node without its link keeps both lists. -/
theorem Rep.modify_data {s : HolePool} {free holes : List Nat} {p : Nat}
    {g : HoleNode → HoleNode} (h : s.Rep free holes) (hg : ∀ n, (g n).pnext = n.pnext) :
    (s.modify p g).Rep free holes := by
  have hn : ∀ i, (s.modify p g).next i = s.next i := by
    intro i
    by_cases hi : i = p
    · subst hi; simp [HolePool.next, hg]
    · simp [HolePool.next, hi]
  exact ⟨h.pfree.congr fun i _ => hn i, h.phead.congr fun i _ => hn i, h.disj⟩

/-- Two pools whose nodes hold the same range at `i`. -/
def SameRange (s t : HolePool) (i : Nat) : Prop :=
  (t.nodes i).addr = (s.nodes i).addr ∧ (t.nodes i).size = (s.nodes i).size

end HolePool

open HolePool

/-- Where `insertHole` puts a new node: in front if the first hole starts above `addr`, else behind
    the first hole and the run of holes after it that start below `addr`. -/
def insertPos (addrOf : Nat → Nat) (p addr : Nat) : List Nat → List Nat
  | [] => [p]
  | h :: t =>
      if addrOf h > addr then p :: h :: t
      else h :: (t.takeWhile (addrOf · < addr) ++ p :: t.dropWhile (addrOf · < addr))

theorem insertPos_perm (addrOf : Nat → Nat) (p addr : Nat) (l : List Nat) :
    (insertPos addrOf p addr l).Perm (p :: l) := by
  cases l with
  | nil => exact List.Perm.refl _
  | cons h t =>
      rw [insertPos]
      split
      · exact List.Perm.refl _
      · have hmid : (t.takeWhile (addrOf · < addr) ++ p :: t.dropWhile (addrOf · < addr)).Perm
            (p :: t) := by
          refine List.perm_middle.trans ?_
          rw [List.takeWhile_append_dropWhile]
        exact (hmid.cons h).trans (List.Perm.swap p h t)

/-! ## Inserting -/

/-- Putting an unlisted node in front of a chain. -/
theorem pushHead_chain {s : HolePool} {p : Nat} {holes : List Nat}
    (h : Chain s.next s.phead holes) (hp : p ∉ holes) :
    Chain (s.pushHead p).next (s.pushHead p).phead (p :: holes) := by
  refine ⟨rfl, ?_⟩
  have hnext : (s.pushHead p).next p = s.phead := by simp [HolePool.next, HolePool.pushHead]
  rw [hnext]
  refine h.congr fun i hi => ?_
  have hne : i ≠ p := fun he => hp (he ▸ hi)
  simp [HolePool.next, HolePool.pushHead, hne]

/-- Putting an unlisted node behind a node of a chain. -/
theorem linkAfter_chain {s : HolePool} {p ph : Nat} {pre post : List Nat}
    (h : Chain s.next s.phead (pre ++ ph :: post)) (hp : p ∉ pre ++ ph :: post) :
    Chain (s.linkAfter ph p).next (s.linkAfter ph p).phead (pre ++ ph :: p :: post) := by
  have hnd := List.nodup_append.1 h.nodup
  have hpre : ∀ i ∈ pre, (s.linkAfter ph p).next i = s.next i := by
    intro i hi
    have h1 : i ≠ ph := hnd.2.2 i hi ph (List.mem_cons_self ..)
    have h2 : i ≠ p := fun he => hp (by simp [← he, hi])
    simp [HolePool.next, HolePool.linkAfter, h1, h2]
  have hpost : ∀ i ∈ post, (s.linkAfter ph p).next i = s.next i := by
    intro i hi
    have h1 : i ≠ ph := fun he => (List.nodup_cons.1 hnd.2.1).1 (he ▸ hi)
    have h2 : i ≠ p := fun he => hp (by simp [← he, hi])
    simp [HolePool.next, HolePool.linkAfter, h1, h2]
  have hpne : p ≠ ph := fun he => hp (by simp [he])
  have hnextph : (s.linkAfter ph p).next ph = some p := by
    simp [HolePool.next, HolePool.linkAfter]
  have hnextp : (s.linkAfter ph p).next p = s.next ph := by
    simp [HolePool.next, HolePool.linkAfter, hpne]
  refine h.relink hpre ?_
  rw [hnextph]
  refine ⟨rfl, ?_⟩
  rw [hnextp]
  exact h.after.congr hpost

theorem insertHole_spec (c : HoleConfig) (s : HolePool) (p addr size : Nat) {holes : List Nat}
    (hhead : Chain s.next s.phead holes) (hp : p ∉ holes) (hcap : holes.length ≤ c.capacity) :
    ∃ s', insertHole c s p addr size = .ok s' ∧ s'.pfree = s.pfree ∧
      Chain s'.next s'.phead (insertPos (fun i => (s.nodes i).addr) p addr holes) ∧
      (s'.nodes p).addr = addr ∧ (s'.nodes p).size = size ∧
      (∀ i, i ≠ p → SameRange s s' i) ∧
      (∀ i, i ≠ p → i ∉ holes → s'.nodes i = s.nodes i) := by
  set s1 := s.modify p fun n => { n with addr := addr, size := size } with hs1
  have hnodes : ∀ i, i ≠ p → s1.nodes i = s.nodes i := fun i hi => modify_nodes_ne s _ hi
  have hnext : ∀ i, s1.next i = s.next i := by
    intro i
    by_cases hi : i = p
    · subst hi; simp [HolePool.next, hs1]
    · simp [HolePool.next, hnodes i hi]
  have hchain : Chain s1.next s1.phead holes := hhead.congr fun i _ => hnext i
  -- the two ways to end up in front share their postcondition
  have hfront : insertPos (fun i => (s.nodes i).addr) p addr holes = p :: holes →
      insertHole c s p addr size = .ok (s1.pushHead p).spinUnlock →
      ∃ s', insertHole c s p addr size = .ok s' ∧ s'.pfree = s.pfree ∧
        Chain s'.next s'.phead (insertPos (fun i => (s.nodes i).addr) p addr holes) ∧
        (s'.nodes p).addr = addr ∧ (s'.nodes p).size = size ∧
        (∀ i, i ≠ p → SameRange s s' i) ∧
        (∀ i, i ≠ p → i ∉ holes → s'.nodes i = s.nodes i) := by
    intro hpos heq
    refine ⟨_, heq, rfl, ?_, ?_, ?_, ?_, ?_⟩
    · rw [hpos]; exact pushHead_chain hchain hp
    · simp [HolePool.pushHead, hs1]
    · simp [HolePool.pushHead, hs1]
    · intro i hi; simp [SameRange, HolePool.pushHead, hs1, hi]
    · intro i hi _; simp [HolePool.pushHead, hs1, hi]
  cases holes with
  | nil =>
      refine hfront rfl ?_
      have hhead1 : s1.phead = none := hchain
      simp only [insertHole, ← hs1, hhead1]
  | cons h t =>
      have hhead1 : s1.phead = some h := hchain.1
      have hph : h ≠ p := fun he => hp (by simp [he])
      have hpt : p ∉ t := fun hm => hp (List.mem_cons_of_mem _ hm)
      by_cases hgt : (s.nodes h).addr > addr
      · refine hfront (by rw [insertPos, if_pos hgt]) ?_
        simp only [insertHole, ← hs1, hhead1, hnodes h hph, hgt, if_true]
      · -- behind the run of holes that start below `addr`
        have hgo : ∀ i ∈ t, decide ((s1.nodes i).addr < addr) = decide ((s.nodes i).addr < addr) :=
          fun i hi => by rw [hnodes i fun he => hpt (he ▸ hi)]
        obtain ⟨pre, ph, hadv, hsplit, htake⟩ :=
          advance_split (fun j => decide ((s1.nodes j).addr < addr)) hchain hcap
        have hdrop : t.dropWhile (fun j => decide ((s1.nodes j).addr < addr))
            = t.dropWhile (fun j => decide ((s.nodes j).addr < addr)) :=
          (takeWhile_dropWhile_congr hgo).2
        have htk : t.takeWhile (fun j => decide ((s1.nodes j).addr < addr))
            = t.takeWhile (fun j => decide ((s.nodes j).addr < addr)) :=
          (takeWhile_dropWhile_congr hgo).1
        have hpos : insertPos (fun i => (s.nodes i).addr) p addr (h :: t)
            = pre ++ ph :: p :: t.dropWhile (fun j => decide ((s1.nodes j).addr < addr)) := by
          rw [insertPos, if_neg hgt, ← List.cons_append, ← htk, htake, ← hdrop,
            List.append_assoc, List.singleton_append]
        have hphp : ph ≠ p := fun he => hp (by rw [hsplit, he]; simp)
        refine ⟨(s1.linkAfter ph p).spinUnlock, ?_, rfl, ?_, ?_, ?_, ?_, ?_⟩
        · simp only [insertHole, ← hs1, hhead1, hnodes h hph, hgt, if_false, hadv]
        · rw [hpos]
          rw [hsplit] at hchain hp
          exact linkAfter_chain hchain hp
        · simp [HolePool.linkAfter, hs1, hphp.symm]
        · simp [HolePool.linkAfter, hs1, hphp.symm]
        · intro i hi
          by_cases hij : i = ph
          · subst hij; simp [SameRange, HolePool.linkAfter, hs1, hi]
          · simp [SameRange, HolePool.linkAfter, hs1, hi, hij]
        · intro i hi hni
          have hij : i ≠ ph := fun he => hni (by rw [hsplit, he]; simp)
          simp [HolePool.linkAfter, hs1, hi, hij]

/-! ## Freeing -/

/-- A freed range was appended to the hole `ph`; no link changed. -/
structure Merged (s s' : HolePool) (holes : List Nat) (addr size ph : Nat) : Prop where
  mem : ph ∈ holes
  ends : s.holeEnd ph = addr
  pfree : s'.pfree = s.pfree
  phead : s'.phead = s.phead
  self : s'.nodes ph = { s.nodes ph with size := wadd (s.nodes ph).size size }
  others : ∀ i, i ≠ ph → s'.nodes i = s.nodes i

/-- A freed range became the new hole `p`, which was the first unused node. -/
structure Inserted (s s' : HolePool) (free holes : List Nat) (addr size p : Nat) : Prop where
  noEnd : ∀ i ∈ holes, s.holeEnd i ≠ addr
  rep : s'.Rep free (insertPos (fun i => (s.nodes i).addr) p addr holes)
  addr_eq : (s'.nodes p).addr = addr
  size_eq : (s'.nodes p).size = size
  ranges : ∀ i, i ≠ p → SameRange s s' i
  frame : ∀ i, i ≠ p → i ∉ holes → s'.nodes i = s.nodes i

theorem HolePool.Rep.merged {s s' : HolePool} {free holes : List Nat} {addr size ph : Nat}
    (h : s.Rep free holes) (hm : Merged s s' holes addr size ph) : s'.Rep free holes := by
  have hnext : ∀ i, s'.next i = s.next i := by
    intro i
    by_cases hi : i = ph
    · subst hi; simp [HolePool.next, hm.self]
    · simp [HolePool.next, hm.others i hi]
  refine ⟨?_, ?_, h.disj⟩
  · rw [hm.pfree]; exact h.pfree.congr fun i _ => hnext i
  · rw [hm.phead]; exact h.phead.congr fun i _ => hnext i

/-- **What freeing a range does.** It panics exactly when no unused node is left; otherwise it
    extends a hole that ends at `addr`, or inserts a new hole. -/
theorem freeHole_spec (c : HoleConfig) {s : HolePool} {free holes : List Nat}
    (h : s.Rep free holes) (hcap : holes.length ≤ c.capacity) (addr size : Nat) :
    (free = [] ∧ freeHole c s addr size = .error (.panic c.tooSmall)) ∨
    (∃ p free' s', free = p :: free' ∧ freeHole c s addr size = .ok s' ∧
      ((∃ ph, Merged s s' holes addr size ph) ∨ Inserted s s' free' holes addr size p)) := by
  cases free with
  | nil =>
      have hnone : s.pfree = none := h.pfree
      exact .inl ⟨rfl, by simp only [freeHole, hnone]⟩
  | cons p free' =>
      obtain ⟨hpf, hfree'⟩ := h.pfree
      have hp : p ∉ holes := h.disj p (List.mem_cons_self ..)
      have hwalk : walk s.spinLock.next (fun ph => s.spinLock.holeEnd ph == addr) c.capacity
          s.spinLock.phead = some (holes.find? fun ph => s.holeEnd ph == addr) :=
        walk_eq_find h.phead hcap
      refine .inr ⟨p, free', ?_⟩
      cases hfind : holes.find? (fun ph => s.holeEnd ph == addr) with
      | some ph =>
          rw [hfind] at hwalk
          refine ⟨_, rfl, by simp only [freeHole, hpf, hwalk]; rfl, .inl ⟨ph, ?_⟩⟩
          have hend : s.holeEnd ph = addr := by simpa using List.find?_some hfind
          refine ⟨List.mem_of_find?_eq_some hfind, hend, ?_, ?_, ?_, ?_⟩
          · split <;> rfl
          · split <;> rfl
          · split <;> simp
          · intro i hi
            split <;> simp [hi]
      | none =>
          rw [hfind] at hwalk
          set s1 : HolePool := { s.spinLock with pfree := s.spinLock.next p } with hs1
          have hno : ∀ i ∈ holes, s.holeEnd i ≠ addr := by
            intro i hi
            simpa using List.find?_eq_none.1 hfind i hi
          obtain ⟨s', hok, hpfree, hchain, haddr, hsize, hrange, hframe⟩ :=
            insertHole_spec c s1 p addr size h.phead hp hcap
          refine ⟨s', rfl, by simp only [freeHole, hpf, hwalk]; exact hok, .inr ?_⟩
          refine ⟨hno, ⟨?_, hchain, ?_⟩, haddr, hsize, hrange, hframe⟩
          · rw [hpfree]
            refine hfree'.congr fun i hi => ?_
            have hip : i ≠ p := fun he => (List.nodup_cons.1 h.pfree.nodup).1 (he ▸ hi)
            have hih : i ∉ holes := h.disj i (List.mem_cons_of_mem _ hi)
            simp only [HolePool.next, hframe i hip hih]
            rfl
          · intro i hi hmem
            rcases List.mem_cons.1 ((insertPos_perm _ _ _ _).mem_iff.1 hmem) with rfl | hmem
            · exact (List.nodup_cons.1 h.pfree.nodup).1 hi
            · exact h.disj i (List.mem_cons_of_mem _ hi) hmem

/-! ## Taking from a hole -/

/-- Unlinking a node of the list of holes never fails. -/
theorem unlinkHole_spec (c : HoleConfig) {s : HolePool} {pre post : List Nat} {p : Nat}
    (h : Chain s.next s.phead (pre ++ p :: post))
    (hcap : (pre ++ p :: post).length ≤ c.capacity) :
    ∃ s', unlinkHole c s p = .ok s' ∧ s'.pfree = s.pfree ∧
      Chain s'.next s'.phead (pre ++ post) ∧ (∀ i, SameRange s s' i) ∧
      (∀ i, i ∉ pre → s'.nodes i = s.nodes i) := by
  have hnd := List.nodup_append.1 h.nodup
  have hp : p ∉ pre := fun hm => hnd.2.2 p hm p (List.mem_cons_self ..) rfl
  -- rewriting the link of the node in front of `p`
  have hcut : ∀ pre' ptr, pre = pre' ++ [ptr] → ∀ s', s' = s.modify ptr
        (fun n => { n with pnext := s.next p }) → s'.pfree = s.pfree ∧
      Chain s'.next s'.phead (pre ++ post) ∧ (∀ i, SameRange s s' i) ∧
      (∀ i, i ∉ pre → s'.nodes i = s.nodes i) := by
    intro pre' ptr hpre s' hs'
    subst hs' hpre
    rw [List.append_assoc, List.singleton_append] at h
    have hnd' := h.nodup
    have hpre' : ∀ i ∈ pre', i ≠ ptr := fun i hi =>
      (List.nodup_append.1 hnd').2.2 i hi ptr (List.mem_cons_self ..)
    have hpost : ∀ i ∈ post, i ≠ ptr := fun i hi he =>
      (List.nodup_cons.1 (List.nodup_append.1 hnd').2.1).1 (List.mem_cons_of_mem _ (he ▸ hi))
    refine ⟨rfl, ?_, fun i => ?_, fun i hi => ?_⟩
    · rw [List.append_assoc, List.singleton_append]
      refine h.relink (fun i hi => by simp [HolePool.next, hpre' i hi]) ?_
      have hnext : (s.modify ptr fun n => { n with pnext := s.next p }).next ptr = s.next p := by
        simp [HolePool.next]
      rw [hnext]
      rw [← List.singleton_append, ← List.append_assoc] at h
      exact h.after.congr fun i hi => by simp [HolePool.next, hpost i hi]
    · by_cases hi : i = ptr
      · subst hi; simp [SameRange]
      · simp [SameRange, hi]
    · have hne : i ≠ ptr := fun he => hi (by simp [he])
      simp [hne]
  cases pre with
  | nil =>
      obtain ⟨hhead, hrest⟩ := h
      refine ⟨{ s with phead := s.next p }, by simp only [unlinkHole, hhead, if_true], rfl, hrest,
        fun i => ⟨rfl, rfl⟩, fun i _ => rfl⟩
  | cons ptr rest =>
      obtain ⟨hhead, hrest⟩ := h
      have hne : ptr ≠ p := fun he => hp (by simp [he])
      cases rest with
      | nil =>
          refine ⟨_, ?_, hcut [] ptr rfl _ rfl⟩
          have hsecond : s.next ptr = some p := hrest.1
          simp only [unlinkHole, hhead, hne, if_false, hsecond, if_true]
      | cons j rest =>
          have hsecond : s.next ptr ≠ some p := by
            have hj : s.next ptr = some j := hrest.1
            rw [hj]
            exact fun he => hp (by simp [Option.some.inj he])
          -- the loop stops at the node in front of `p`
          have hgo : ∀ i ∈ j :: rest, (i != p) = true := fun i hi => by
            simp only [bne_iff_ne]
            exact fun he => hp (by rw [← he]; exact List.mem_cons_of_mem _ hi)
          have htake : ((j :: rest) ++ p :: post).takeWhile (fun i => i != p) = j :: rest := by
            rw [List.takeWhile_append_of_pos hgo]
            simp
          have hchain : Chain s.next s.phead (ptr :: ((j :: rest) ++ p :: post)) := ⟨hhead, hrest⟩
          have hadv := advance_eq (fun i => i != p) hchain hcap
          rw [htake] at hadv
          set last := (ptr :: j :: rest).getLast (by simp) with hlast
          have hsplit : ptr :: j :: rest = (ptr :: j :: rest).dropLast ++ [last] :=
            (List.dropLast_append_getLast (by simp)).symm
          have hnext : s.next last = some p := by
            have hc : Chain s.next s.phead ((ptr :: j :: rest) ++ p :: post) := hchain
            rw [hsplit, List.append_assoc, List.singleton_append] at hc
            exact hc.after.1
          refine ⟨_, ?_, hcut _ last hsplit _ rfl⟩
          simp only [unlinkHole, hhead, hne, if_false, hsecond, hadv, hnext]
          simp

/-- A node given back to the unused nodes. -/
theorem pushFree_chain {s : HolePool} {p : Nat} {free : List Nat}
    (h : Chain s.next s.pfree free) (hp : p ∉ free) :
    Chain (s.pushFree p).next (s.pushFree p).pfree (p :: free) := by
  refine ⟨rfl, ?_⟩
  have hnext : (s.pushFree p).next p = s.pfree := by simp [HolePool.next, HolePool.pushFree]
  rw [hnext]
  refine h.congr fun i hi => ?_
  have hne : i ≠ p := fun he => hp (he ▸ hi)
  simp [HolePool.next, HolePool.pushFree, hne]

/-- `size` bytes were taken from the front of the hole `p`. -/
structure Carved (s s' : HolePool) (holes : List Nat) (p size : Nat) : Prop where
  addr_eq : (s'.nodes p).addr = wadd (s.nodes p).addr size
  size_eq : (s'.nodes p).size = wsub (s.nodes p).size size
  ranges : ∀ i, i ≠ p → SameRange s s' i
  frame : ∀ i, i ∉ holes → s'.nodes i = s.nodes i

/-- **What taking from a hole does.** The block starts at the hole's address; the node of a hole
    that is used up goes back to the unused nodes. -/
theorem carveHole_spec (c : HoleConfig) (drop : Nat) {s : HolePool} {free pre post : List Nat}
    {p : Nat} (h : s.Rep free (pre ++ p :: post))
    (hcap : (pre ++ p :: post).length ≤ c.capacity) (size : Nat) :
    ∃ s', carveHole c drop s p size = .ok ((s.nodes p).addr, s') ∧
      Carved s s' (pre ++ p :: post) p size ∧
      (if wsub (s.nodes p).size size ≤ drop then s'.Rep (p :: free) (pre ++ post)
       else s'.Rep free (pre ++ p :: post)) := by
  set s1 := s.modify p fun n => { n with size := wsub n.size size } with hs1
  have hne1 : ∀ i, i ≠ p → s1.nodes i = s.nodes i := fun i hi => modify_nodes_ne s _ hi
  have hnext1 : ∀ i, s1.next i = s.next i := by
    intro i
    by_cases hi : i = p
    · subst hi; simp [HolePool.next, hs1]
    · simp [HolePool.next, hne1 i hi]
  have hsize1 : (s1.nodes p).size = wsub (s.nodes p).size size := by simp [hs1]
  have haddr1 : (s1.nodes p).addr = (s.nodes p).addr := by simp [hs1]
  have hhead1 : Chain s1.next s1.phead (pre ++ p :: post) := h.phead.congr fun i _ => hnext1 i
  have hfree1 : Chain s1.next s1.pfree free := h.pfree.congr fun i _ => hnext1 i
  have hnd := List.nodup_append.1 h.phead.nodup
  have hppre : p ∉ pre := fun hm => hnd.2.2 p hm p (List.mem_cons_self ..) rfl
  have hppost : p ∉ post := (List.nodup_cons.1 hnd.2.1).1
  have hpfree : p ∉ free := fun hm => h.disj p hm (by simp)
  -- what is left is at most `drop`: the node is unlinked and goes back to the unused ones
  by_cases hdrop : wsub (s.nodes p).size size ≤ drop
  · obtain ⟨s2, hok, hpf, hchain, hrange, hframe⟩ := unlinkHole_spec c hhead1 hcap
    have hnext2 : ∀ i ∈ free, s2.next i = s1.next i := by
      intro i hi
      have : i ∉ pre := fun hm => h.disj i hi (by simp [hm])
      simp only [HolePool.next, hframe i this]
    have hfree2 : Chain s2.next s2.pfree free := by
      rw [hpf]; exact hfree1.congr hnext2
    have hrep3 : (s2.pushFree p).Rep (p :: free) (pre ++ post) := by
      refine ⟨pushFree_chain hfree2 hpfree, ?_, ?_⟩
      · refine hchain.congr fun i hi => ?_
        have hip : i ≠ p := fun he => by
          rw [he, List.mem_append] at hi
          exact hi.elim hppre hppost
        simp [HolePool.next, HolePool.pushFree, hip]
      · intro i hi hmem
        rcases List.mem_cons.1 hi with rfl | hi
        · exact (List.mem_append.1 hmem).elim hppre hppost
        · refine h.disj i hi ?_
          rcases List.mem_append.1 hmem with hm | hm
          · simp [hm]
          · simp [hm]
    have hp2 : s2.nodes p = s1.nodes p := hframe p hppre
    refine ⟨(s2.pushFree p).modify p fun n => { n with addr := wadd n.addr size }, ?_,
      ⟨?_, ?_, ?_, ?_⟩, ?_⟩
    · simp only [carveHole, ← hs1, hsize1, hdrop, if_true, hok, bind, Except.bind, pure, Except.pure]
      simp [HolePool.pushFree, hp2, haddr1]
    · simp [HolePool.pushFree, hp2, haddr1]
    · simp [HolePool.pushFree, hp2, hsize1]
    · intro i hi
      have := hrange i
      simp only [SameRange, HolePool.pushFree, modify_nodes_ne _ _ hi] at this ⊢
      rw [this.1, this.2, hne1 i hi]
      exact ⟨rfl, rfl⟩
    · intro i hi
      have hip : i ≠ p := fun he => hi (by simp [he])
      have hipre : i ∉ pre := fun hm => hi (by simp [hm])
      simp [HolePool.pushFree, hip, hframe i hipre, hne1 i hip]
    · rw [if_pos hdrop]
      exact hrep3.modify_data fun _ => rfl
  · refine ⟨s1.modify p fun n => { n with addr := wadd n.addr size }, ?_, ⟨?_, ?_, ?_, ?_⟩, ?_⟩
    · simp only [carveHole, ← hs1, hsize1, hdrop, if_false, bind, Except.bind, pure, Except.pure,
        haddr1]
    · simp [haddr1]
    · simp [hsize1]
    · intro i hi; simp [SameRange, hi, hne1 i hi]
    · intro i hi
      have hip : i ≠ p := fun he => hi (by simp [he])
      simp [hip, hne1 i hip]
    · rw [if_neg hdrop]
      exact HolePool.Rep.modify_data ⟨hfree1, hhead1, h.disj⟩ fun _ => rfl

/-! ## Searching -/

theorem firstFit_eq (c : HoleConfig) {s : HolePool} {holes : List Nat}
    (h : Chain s.next s.phead holes) (hcap : holes.length ≤ c.capacity) (size : Nat) :
    firstFit c s size = some (holes.find? fun p => !((s.nodes p).size < size)) :=
  walk_eq_find h hcap

/-- When some hole is large enough, the search that may stop at the last hole finds one that is. -/
theorem firstFitOrLast_fits (c : HoleConfig) {s : HolePool} {holes : List Nat}
    (h : Chain s.next s.phead holes) (hcap : holes.length ≤ c.capacity) {size i : Nat}
    (hi : i ∈ holes) (hfit : size ≤ (s.nodes i).size) :
    ∃ p ∈ holes, firstFitOrLast c s size = some (some p) ∧ size ≤ (s.nodes p).size := by
  have hwalk : firstFitOrLast c s size
      = some (holes.find? fun p => (s.next p).isNone || !((s.nodes p).size < size)) :=
    walk_eq_find h hcap
  cases hfind : holes.find? (fun p => (s.next p).isNone || !((s.nodes p).size < size)) with
  | none =>
      have := List.find?_eq_none.1 hfind i hi
      simp only [Bool.or_eq_true, Bool.not_eq_true', decide_eq_false_iff_not, not_or] at this
      omega
  | some p =>
      rw [hfind] at hwalk
      refine ⟨p, List.mem_of_find?_eq_some hfind, hwalk, ?_⟩
      obtain ⟨pre, post, hsplit, hstop, hpre⟩ := find_split hfind
      by_contra hsmall
      have hnone : s.next p = none := by
        simpa [hsmall, Nat.not_le.1 hsmall] using hstop
      -- `p` is the last hole, so the large hole is in front of it and would have stopped the search
      have hpost : post = [] := by
        have hafter := (hsplit ▸ h).after
        rw [hnone] at hafter
        exact hafter.unique (chain_nil.2 rfl)
      rw [hsplit, hpost] at hi
      rcases List.mem_append.1 hi with hi | hi
      · have := hpre i hi
        simp only [Bool.or_eq_false_iff, Bool.not_eq_false', decide_eq_true_eq] at this
        omega
      · simp only [List.mem_singleton] at hi
        subst hi
        exact hsmall hfit

/-! ## Starting -/

/-- After the `init_…` loop every node is unused. -/
theorem initHoles_rep (capacity : Nat) : (initHoles capacity).Rep (List.range capacity) [] := by
  have hsuffix : ∀ k, k ≤ capacity → Chain (initHoles capacity).next
      (if capacity - k < capacity then some (capacity - k) else none)
      (List.range' (capacity - k) k) := by
    intro k hk
    induction k with
    | zero => simp
    | succ k ih =>
        have hlt : capacity - (k + 1) < capacity := by omega
        have hstep : capacity - (k + 1) + 1 = capacity - k := by omega
        rw [if_pos hlt, List.range'_succ, hstep]
        refine ⟨rfl, ?_⟩
        simp only [HolePool.next, initHoles, hstep]
        exact ih (by omega)
  refine ⟨?_, rfl, by simp⟩
  have := hsuffix capacity le_rfl
  rw [Nat.sub_self, ← List.range_eq_range'] at this
  cases capacity with
  | zero => exact this
  | succ n => exact this

end Yaos
