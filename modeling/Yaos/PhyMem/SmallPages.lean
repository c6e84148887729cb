import Yaos.PhyMem.Runs

set_option autoImplicit false

/-! # Frames for page faults (`alloc_small_phy_page_safe`)

One 2 MiB page at a time is handed out in frames of 4 KiB. `smallbits` has 64 words, of which `smallpmax` makes the
search use eight; the refill sets all of them. `alloc_phy_page` is an oracle: `answers i` is what its call number
`i` returns, and `asked` counts the calls. -/

namespace Yaos

open Bitmap Word

/-- The bitmap of the 4 KiB pages of one 2 MiB page, and how many pages were asked for. -/
structure SmallPages where
  smallbits : Nat → BitVec 64
  smallpnow : Nat
  smallpmax : Nat
  smallpages : Nat
  smallpageBase : Nat
  asked : Nat

/-- The part of `init_phy_mem`; `p` is what lies behind `smallbits`. -/
def initSmallPages (p : Nat → BitVec 64) : SmallPages where
  smallbits i := if i < 64 then 0 else p i
  smallpnow := 0
  smallpmax := 0x200000 / 0x1000 / 64
  smallpages := 0
  smallpageBase := 0
  asked := 0

/-- `get_none_zero_small`. -/
def getNoneZeroSmall (s : SmallPages) : Option Nat × SmallPages :=
  let r := searchWords s.smallbits s.smallpmax s.smallpnow
  (r.1, { s with smallpnow := r.2 })

/-- `while (smallpages) { … }`, where `again` is the call of the function itself. A turn that goes round changes
    nothing but `smallpnow`, so two of them would never end. -/
def allocSmallLoop (again : SmallPages → Except Fault (Nat × SmallPages)) :
    Nat → SmallPages → Except Fault (Nat × SmallPages)
  | 0, _ => .error .hang
  | turns + 1, s =>
      if s.smallpages = 0 then .ok (0, s)
      else
        match getNoneZeroSmall s with
        | (none, s) => again s
        | (some p, s) =>
            if s.smallbits p = 0 then allocSmallLoop again turns s
            else
              let pos := ffs (s.smallbits p)
              let nr := pos + p * 64
              if bit s.smallbits nr then
                .ok (wadd (0x1000 * nr) s.smallpageBase,
                  { s with smallbits := clearBit s.smallbits nr, smallpages := wsub s.smallpages 1 })
              else allocSmallLoop again turns s

/-- What the call sets up for a new page. -/
def SmallPages.refill (s : SmallPages) (addr : Nat) : SmallPages where
  smallbits i := if i < 64 then BitVec.allOnes 64 else s.smallbits i
  smallpnow := 0
  smallpmax := 0x200000 / 0x1000 / 64
  smallpages := 0x200000 / 0x1000
  smallpageBase := addr
  asked := s.asked

/-- The call with its recursion. A recursion that finds frames left has found them before, so two of them would
    never end. -/
def allocSmallDepth (answers : Nat → Nat) : Nat → SmallPages → Except Fault (Nat × SmallPages)
  | 0, _ => .error .hang
  | depth + 1, s =>
      if s.smallpages = 0 then
        let addr := answers s.asked
        let s := { s with asked := s.asked + 1 }
        if addr = 0 then .ok (0, s) else allocSmallLoop (allocSmallDepth answers depth) 2 (s.refill addr)
      else allocSmallLoop (allocSmallDepth answers depth) 2 s

/-- `alloc_small_phy_page_safe`, with what `alloc_phy_page` answers each time. -/
def allocSmallPhyPageSafe (answers : Nat → Nat) (s : SmallPages) : Except Fault (Nat × SmallPages) :=
  allocSmallDepth answers 2 s

/-- The results of `n` calls, and the state behind them. -/
def smallCalls (answers : Nat → Nat) (p : Nat → BitVec 64) : Nat → Except Fault (List Nat × SmallPages)
  | 0 => .ok ([], initSmallPages p)
  | n + 1 => do
      let r ← smallCalls answers p n
      let c ← allocSmallPhyPageSafe answers r.2
      .ok (r.1 ++ [c.1], c.2)

/-- The pages among the first `k` answers, in order. -/
def obtained (answers : Nat → Nat) (k : Nat) : List Nat :=
  ((List.range k).filter fun i => answers i ≠ 0).map answers

/-- The frames among the results. -/
def framesOf (rs : List Nat) : List Nat := rs.filter (· ≠ 0)

/-- `alloc_phy_page` answers with 2 MiB pages, each at most once. -/
structure PagesOnce (answers : Nat → Nat) : Prop where
  aligned : ∀ i, answers i % 0x200000 = 0
  lt : ∀ i, answers i < 2 ^ 64
  once : ∀ i j, answers i ≠ 0 → answers i = answers j → i = j

namespace SmallPages

/-- `smallpages` counts the frames that are left, and the search is inside the eight words. -/
structure Inv (s : SmallPages) : Prop where
  pnow_lt : s.smallpnow < 8
  pmax_eq : s.smallpmax = 8
  count : s.smallpages = (setBits s.smallbits 512).card

/-- Frame `nr` was taken, and the search ended at the word `p`. -/
def takeFrame (s : SmallPages) (nr p : Nat) : SmallPages :=
  { s with smallbits := clearBit s.smallbits nr, smallpages := s.smallpages - 1, smallpnow := p }

/-- The history of the calls: `taken` are the frames they returned. -/
structure History (answers : Nat → Nat) (taken : List Nat) (s : SmallPages) : Prop where
  inv : s.Inv
  total : 512 * (obtained answers s.asked).length = taken.length + s.smallpages
  base : s.smallpages ≠ 0 → (obtained answers s.asked).getLast? = some s.smallpageBase
  frame : ∀ j a, taken[j]? = some a → ∃ page nr, (obtained answers s.asked)[j / 512]? = some page ∧ nr < 512 ∧
    a = page + 0x1000 * nr ∧ (j / 512 + 1 = (obtained answers s.asked).length → bit s.smallbits nr = false)
  nodup : taken.Nodup

end SmallPages

/-! ## One call -/

section Call

variable {s : SmallPages} {answers : Nat → Nat}

theorem SmallPages.Inv.left_le (h : s.Inv) : s.smallpages ≤ 512 := by
  rw [h.count]
  exact card_setBits_le

/-- While frames are left, the search finds one in the eight words, so the function does not call itself. -/
theorem allocSmallLoop_spec (again : SmallPages → Except Fault (Nat × SmallPages)) (h : s.Inv)
    (hleft : s.smallpages ≠ 0) :
    ∃ nr p, nr < 512 ∧ bit s.smallbits nr = true ∧ (s.takeFrame nr p).Inv ∧
      allocSmallLoop again 2 s = .ok (wadd (0x1000 * nr) s.smallpageBase, s.takeFrame nr p) := by
  have hpmax := h.pmax_eq
  have hpnow := h.pnow_lt
  rw [allocSmallLoop, if_neg hleft, getNoneZeroSmall]
  rcases searchWords_spec (w := s.smallbits) (Nat.le_of_lt (hpmax ▸ hpnow)) with ⟨p, heq, hp, hne⟩ | ⟨-, hall⟩
  · obtain ⟨hffs, hbit⟩ := bit_ffs hne
    have hplt : p < 8 := by omega
    have hlt : ffs (s.smallbits p) + p * 64 < 512 := by omega
    have hle := h.left_le
    rw [heq]
    dsimp only
    rw [if_neg hne, if_pos hbit, wsub_eq (by omega) (by omega)]
    refine ⟨_, p, hlt, hbit, ⟨hplt, hpmax, ?_⟩, rfl⟩
    have hmem : ffs (s.smallbits p) + p * 64 ∈ setBits s.smallbits 512 := mem_setBits.2 ⟨hlt, hbit⟩
    show s.smallpages - 1 = (setBits (clearBit s.smallbits _) 512).card
    rw [setBits_clearBit, Finset.card_erase_of_mem hmem, h.count]
  · -- no word below `smallpmax` has a bit set, but `smallpages` counts one
    have hcard : (setBits s.smallbits 512).card ≠ 0 := h.count ▸ hleft
    obtain ⟨i, hi⟩ := Finset.card_ne_zero.1 hcard
    obtain ⟨hlt, hbit⟩ := mem_setBits.1 hi
    exact absurd (hall (i / 64) (.inl (by omega))) (word_ne_zero hbit)

theorem refill_inv (s : SmallPages) (addr : Nat) : (s.refill addr).Inv := by
  refine ⟨show 0 < 8 by decide, rfl, ?_⟩
  have hall : setBits (s.refill addr).smallbits 512 = Finset.range 512 := by
    ext i
    rw [mem_setBits, Finset.mem_range, and_iff_left_iff_imp]
    intro hi
    have hword : i / 64 < 64 := by omega
    show (if i / 64 < 64 then BitVec.allOnes 64 else s.smallbits (i / 64)).getLsbD (i % 64) = true
    rw [if_pos hword, BitVec.getLsbD_allOnes]
    exact decide_eq_true (Nat.mod_lt i (by decide))
  rw [hall, Finset.card_range]
  rfl

/-- A call takes a frame of the page it has, finds that there is no page, or takes a frame of a new page. -/
theorem allocSmallPhyPageSafe_cases (answers : Nat → Nat) (h : s.Inv) :
    (s.smallpages ≠ 0 ∧ ∃ nr p, nr < 512 ∧ bit s.smallbits nr = true ∧ (s.takeFrame nr p).Inv ∧
      allocSmallPhyPageSafe answers s = .ok (wadd (0x1000 * nr) s.smallpageBase, s.takeFrame nr p)) ∨
    (s.smallpages = 0 ∧ answers s.asked = 0 ∧
      allocSmallPhyPageSafe answers s = .ok (0, { s with asked := s.asked + 1 })) ∨
    (s.smallpages = 0 ∧ answers s.asked ≠ 0 ∧ ∃ t, t = SmallPages.refill { s with asked := s.asked + 1 }
        (answers s.asked) ∧ t.Inv ∧
      ∃ nr p, nr < 512 ∧ bit t.smallbits nr = true ∧ (t.takeFrame nr p).Inv ∧
        allocSmallPhyPageSafe answers s = .ok (wadd (0x1000 * nr) t.smallpageBase, t.takeFrame nr p)) := by
  unfold allocSmallPhyPageSafe
  rw [allocSmallDepth]
  by_cases hleft : s.smallpages = 0
  · rw [if_pos hleft]
    dsimp only
    by_cases hzero : answers s.asked = 0
    · rw [if_pos hzero]
      exact .inr (.inl ⟨hleft, hzero, rfl⟩)
    · rw [if_neg hzero]
      have hinv := refill_inv { s with asked := s.asked + 1 } (answers s.asked)
      obtain ⟨nr, p, hlt, hbit, htaken, hok⟩ := allocSmallLoop_spec (allocSmallDepth answers 1) hinv
        (show 0x200000 / 0x1000 ≠ 0 by decide)
      exact .inr (.inr ⟨hleft, hzero, _, rfl, hinv, nr, p, hlt, hbit, htaken, hok⟩)
  · rw [if_neg hleft]
    obtain ⟨nr, p, hlt, hbit, htaken, hok⟩ := allocSmallLoop_spec (allocSmallDepth answers 1) h hleft
    exact .inl ⟨hleft, nr, p, hlt, hbit, htaken, hok⟩

end Call

/-! ## The history of the calls -/

section Runs

variable {s : SmallPages} {answers : Nat → Nat} {taken : List Nat}

theorem obtained_succ (answers : Nat → Nat) (k : Nat) :
    obtained answers (k + 1) = obtained answers k ++ if answers k = 0 then [] else [answers k] := by
  unfold obtained
  rw [List.range_succ, List.filter_append, List.map_append]
  by_cases hzero : answers k = 0
  · simp [hzero]
  · simp [hzero]

theorem PagesOnce.obtained_nodup (h : PagesOnce answers) (k : Nat) : (obtained answers k).Nodup := by
  refine List.Nodup.map_on (fun i hi j _ heq => ?_) (List.nodup_range.filter _)
  have hne : answers i ≠ 0 := by simpa using (List.mem_filter.1 hi).2
  exact h.once i j hne heq

theorem mem_obtained {k page : Nat} (h : page ∈ obtained answers k) : ∃ i, answers i = page ∧ page ≠ 0 := by
  obtain ⟨i, hi, rfl⟩ := List.mem_map.1 h
  exact ⟨i, rfl, by simpa using (List.mem_filter.1 hi).2⟩

/-- The address of a frame of a page, without a wrap. -/
theorem PagesOnce.frame_eq (h : PagesOnce answers) {k page nr : Nat} (hpage : page ∈ obtained answers k)
    (hnr : nr < 512) : wadd (0x1000 * nr) page = page + 0x1000 * nr ∧ page + 0x1000 * nr ≠ 0 := by
  obtain ⟨i, rfl, hne⟩ := mem_obtained hpage
  have hal := h.aligned i
  have hlt := h.lt i
  refine ⟨?_, by omega⟩
  rw [wadd_eq (by omega), Nat.add_comm]

/-- A frame of the page in hand, that is left, goes to the history. -/
theorem SmallPages.History.take (h : s.History answers taken) (hp : PagesOnce answers) (hleft : s.smallpages ≠ 0)
    {nr p : Nat} (hnr : nr < 512) (hbit : bit s.smallbits nr = true) (hinv : (s.takeFrame nr p).Inv) :
    (s.takeFrame nr p).History answers (taken ++ [s.smallpageBase + 0x1000 * nr]) := by
  have hbase := h.base hleft
  have htotal := h.total
  have hle := h.inv.left_le
  rw [List.getLast?_eq_getElem?] at hbase
  refine ⟨hinv, ?_, fun _ => h.base hleft, fun j a hj => ?_, List.nodup_append.2 ⟨h.nodup, by simp, ?_⟩⟩
  · rw [List.length_append, List.length_singleton]
    show 512 * (obtained answers s.asked).length = taken.length + 1 + (s.smallpages - 1)
    omega
  · rcases Nat.lt_or_ge j taken.length with hlt | hge
    · rw [List.getElem?_append_left hlt] at hj
      obtain ⟨page, nr', hpage, hnr', ha, hcur⟩ := h.frame j a hj
      refine ⟨page, nr', hpage, hnr', ha, fun hlast => ?_⟩
      show bit (clearBit s.smallbits nr) nr' = false
      rw [bit_clearBit, hcur hlast, Bool.false_and]
    · rw [List.getElem?_append_right hge] at hj
      have hj0 : j = taken.length := by
        by_contra hne
        rw [List.getElem?_eq_none (by simp; omega)] at hj
        cases hj
      subst hj0
      rw [Nat.sub_self, List.getElem?_cons_zero, Option.some.injEq] at hj
      have hindex : taken.length / 512 = (obtained answers s.asked).length - 1 := by omega
      refine ⟨s.smallpageBase, nr, by rw [hindex]; exact hbase, hnr, hj.symm, fun _ => ?_⟩
      show bit (clearBit s.smallbits nr) nr = false
      rw [bit_clearBit, decide_eq_true rfl, Bool.not_true, Bool.and_false]
  · -- an earlier frame of this page has its bit cleared, and other pages share no address with it
    intro a ha b hb heq
    obtain rfl := List.mem_singleton.1 hb
    obtain ⟨j, hj⟩ := List.mem_iff_getElem?.1 ha
    obtain ⟨page, nr', hpage, hnr', hpa, hcur⟩ := h.frame j a hj
    have hmem := List.mem_of_getElem? hpage
    obtain ⟨i, hi, -⟩ := mem_obtained hmem
    obtain ⟨i', hi', -⟩ := mem_obtained (List.mem_of_getElem? hbase)
    have hal := hp.aligned i
    have hal' := hp.aligned i'
    have hsame : page = s.smallpageBase ∧ nr' = nr := by omega
    obtain ⟨hlen, hget⟩ := List.getElem?_eq_some_iff.1 hpage
    obtain ⟨hlen', hget'⟩ := List.getElem?_eq_some_iff.1 hbase
    have hindex : j / 512 = (obtained answers s.asked).length - 1 :=
      (List.Nodup.getElem_inj_iff (hp.obtained_nodup _)).1 (hget.trans (hsame.1.trans hget'.symm))
    have := hcur (by omega)
    rw [hsame.2, hbit] at this
    cases this

/-- A new page behind a page that is used up. -/
theorem SmallPages.History.refill (h : s.History answers taken) (hempty : s.smallpages = 0)
    (hne : answers s.asked ≠ 0) :
    (SmallPages.refill { s with asked := s.asked + 1 } (answers s.asked)).History answers taken := by
  have htotal := h.total
  have hobtained : obtained answers (s.asked + 1) = obtained answers s.asked ++ [answers s.asked] := by
    rw [obtained_succ, if_neg hne]
  refine ⟨refill_inv _ _, ?_, fun _ => ?_, fun j a hj => ?_, h.nodup⟩
  · show 512 * (obtained answers (s.asked + 1)).length = taken.length + 0x200000 / 0x1000
    rw [hobtained, List.length_append, List.length_singleton]
    omega
  · show (obtained answers (s.asked + 1)).getLast? = some (answers s.asked)
    rw [hobtained, List.getLast?_append, List.getLast?_singleton]
    rfl
  · obtain ⟨page, nr, hpage, hnr, ha, -⟩ := h.frame j a hj
    have hlt := (List.getElem?_eq_some_iff.1 hpage).1
    refine ⟨page, nr, ?_, hnr, ha, fun hlast => ?_⟩
    · show (obtained answers (s.asked + 1))[j / 512]? = some page
      rw [hobtained, List.getElem?_append_left hlt, hpage]
    · -- the frame is of an earlier page
      have hlen : j / 512 + 1 = (obtained answers (s.asked + 1)).length := hlast
      rw [hobtained, List.length_append, List.length_singleton] at hlen
      omega

theorem SmallPages.History.exhausted (h : s.History answers taken) (hempty : s.smallpages = 0)
    (hzero : answers s.asked = 0) : SmallPages.History answers taken { s with asked := s.asked + 1 } := by
  have hobtained : obtained answers (s.asked + 1) = obtained answers s.asked := by
    rw [obtained_succ, if_pos hzero, List.append_nil]
  refine ⟨⟨h.inv.pnow_lt, h.inv.pmax_eq, h.inv.count⟩, ?_, fun hleft => absurd hempty hleft, ?_, h.nodup⟩
  · show 512 * (obtained answers (s.asked + 1)).length = _
    rw [hobtained]
    exact h.total
  · show ∀ j a, _ → ∃ page nr, (obtained answers (s.asked + 1))[j / 512]? = some page ∧ _
    rw [hobtained]
    exact h.frame

theorem initSmallPages_history (answers : Nat → Nat) (p : Nat → BitVec 64) :
    (initSmallPages p).History answers [] := by
  refine ⟨⟨show 0 < 8 by decide, rfl, ?_⟩, rfl, fun h => absurd rfl h, fun j a hj => ?_, .nil⟩
  · have hnone : setBits (initSmallPages p).smallbits 512 = ∅ := by
      refine Finset.eq_empty_of_forall_notMem fun i hi => ?_
      obtain ⟨hlt, hbit⟩ := mem_setBits.1 hi
      have hword : (initSmallPages p).smallbits (i / 64) = 0 := if_pos (by omega)
      exact word_ne_zero hbit hword
    rw [hnone]
    rfl
  · rw [List.getElem?_nil] at hj
    cases hj

theorem framesOf_append (rs : List Nat) (r : Nat) :
    framesOf (rs ++ [r]) = framesOf rs ++ if r = 0 then [] else [r] := by
  unfold framesOf
  rw [List.filter_append]
  by_cases hr : r = 0
  · simp [hr]
  · simp [hr]

/-- One call returns, asks for a page exactly if the pages obtained are used up, gives a frame unless there is no
    other page, and keeps the history. -/
theorem SmallPages.History.call {rs : List Nat} (h : s.History answers (framesOf rs)) (hp : PagesOnce answers) :
    ∃ r s', allocSmallPhyPageSafe answers s = .ok (r, s') ∧ s'.History answers (framesOf (rs ++ [r])) ∧
      (s'.asked ≠ s.asked ↔ (framesOf rs).length = 512 * (obtained answers s.asked).length) ∧
      (r = 0 ↔ (framesOf rs).length = 512 * (obtained answers s.asked).length ∧ answers s.asked = 0) := by
  have htotal := h.total
  rcases allocSmallPhyPageSafe_cases answers h.inv with
    ⟨hleft, nr, p, hnr, hbit, hinv, hok⟩ | ⟨hempty, hzero, hok⟩ |
      ⟨hempty, hne, t, rfl, -, nr, p, hnr, hbit, hinv, hok⟩
  · obtain ⟨haddr, hne⟩ := hp.frame_eq (List.mem_of_getLast? (h.base hleft)) hnr
    rw [haddr] at hok
    refine ⟨_, _, hok, ?_, iff_of_false (fun hasked => hasked rfl) (by omega),
      iff_of_false hne fun hall => by omega⟩
    rw [framesOf_append, if_neg hne]
    exact h.take hp hleft hnr hbit hinv
  · refine ⟨_, _, hok, ?_, iff_of_true (Nat.succ_ne_self _) (by omega), iff_of_true rfl ⟨by omega, hzero⟩⟩
    rw [framesOf_append, if_pos rfl, List.append_nil]
    exact h.exhausted hempty hzero
  · have hrefilled := h.refill hempty hne
    have hleft : 0x200000 / 0x1000 ≠ 0 := by decide
    obtain ⟨haddr, hne'⟩ := hp.frame_eq (List.mem_of_getLast? (hrefilled.base hleft)) hnr
    rw [haddr] at hok
    refine ⟨_, _, hok, ?_, iff_of_true (Nat.succ_ne_self _) (by omega), iff_of_false hne' fun hall => hne hall.2⟩
    rw [framesOf_append, if_neg hne']
    exact hrefilled.take hp hleft hnr hbit hinv

theorem smallCalls_history (hp : PagesOnce answers) (p : Nat → BitVec 64) (n : Nat) :
    ∃ rs s, smallCalls answers p n = .ok (rs, s) ∧ rs.length = n ∧ s.History answers (framesOf rs) := by
  induction n with
  | zero => exact ⟨[], initSmallPages p, rfl, rfl, initSmallPages_history answers p⟩
  | succ n ih =>
      obtain ⟨rs, s, hrun, hlength, h⟩ := ih
      obtain ⟨r, s', hok, h', -⟩ := h.call hp
      exact ⟨rs ++ [r], s', bind_eq_ok.2 ⟨_, hrun, bind_eq_ok.2 ⟨_, hok, rfl⟩⟩, by simp [hlength], h'⟩

/-- **Frames for page faults.** Any number of calls returns. The frames they give are distinct and aligned, and 512
    lie in each page that was obtained, in the order of the pages; all but the last page are used up. The next call
    asks for a page exactly if the last one is used up, too, and it gives a frame unless there is no page then. -/
theorem smallFrames_unique (hp : PagesOnce answers) (p : Nat → BitVec 64) (n : Nat) :
    ∃ rs s, smallCalls answers p n = .ok (rs, s) ∧ rs.length = n ∧ (framesOf rs).Nodup ∧
      (∀ j a, (framesOf rs)[j]? = some a → a % 0x1000 = 0 ∧
        ∃ page, (obtained answers s.asked)[j / 512]? = some page ∧ page ≤ a ∧ a < page + 0x200000) ∧
      512 * ((obtained answers s.asked).length - 1) ≤ (framesOf rs).length ∧
      (framesOf rs).length ≤ 512 * (obtained answers s.asked).length ∧
      ∃ r s', allocSmallPhyPageSafe answers s = .ok (r, s') ∧
        (s'.asked ≠ s.asked ↔ (framesOf rs).length = 512 * (obtained answers s.asked).length) ∧
        (r = 0 ↔ (framesOf rs).length = 512 * (obtained answers s.asked).length ∧ answers s.asked = 0) := by
  obtain ⟨rs, s, hrun, hlength, h⟩ := smallCalls_history hp p n
  have htotal := h.total
  have hle := h.inv.left_le
  refine ⟨rs, s, hrun, hlength, h.nodup, fun j a hj => ?_, by omega, by omega, ?_⟩
  · obtain ⟨page, nr, hpage, hnr, rfl, -⟩ := h.frame j a hj
    obtain ⟨i, hi, -⟩ := mem_obtained (List.mem_of_getElem? hpage)
    have hal := hp.aligned i
    exact ⟨by omega, page, hpage, by omega, by omega⟩
  · obtain ⟨r, s', hok, -, hasked, hzero⟩ := h.call hp
    exact ⟨r, s', hok, hasked, hzero⟩

/-- `alloc_phy_page` has one page, at 4 MiB. -/
def onlyPage : Nat → Nat := fun i => if i = 0 then 0x400000 else 0

/-- After three calls the first three frames of the page are given, and the next call gives another one. -/
theorem smallFrames_unique_three : ∃ s, smallCalls onlyPage (fun _ => 0) 3 =
      .ok ([0x400000, 0x401000, 0x402000], s) ∧
    ∃ r s', allocSmallPhyPageSafe onlyPage s = .ok (r, s') ∧ s'.asked = s.asked ∧ r ≠ 0 := by
  have hp : PagesOnce onlyPage := by
    refine ⟨fun i => ?_, fun i => ?_, fun i j hne heq => ?_⟩
    · unfold onlyPage
      split <;> rfl
    · unfold onlyPage
      split <;> decide
    · unfold onlyPage at hne heq
      by_cases hi : i = 0
      · by_cases hj : j = 0
        · rw [hi, hj]
        · rw [if_pos hi, if_neg hj] at heq
          cases heq
      · exact absurd (if_neg hi) hne
  obtain ⟨rs, s, hrun, -, -, -, -, -, r, s', hok, hasked, hzero⟩ := smallFrames_unique hp (fun _ => 0) 3
  have hcalls : (smallCalls onlyPage (fun _ => 0) 3).map (fun c => (c.1, c.2.asked)) =
      .ok ([0x400000, 0x401000, 0x402000], 1) := by decide +kernel
  rw [hrun] at hcalls
  obtain ⟨rfl, hone⟩ : rs = [0x400000, 0x401000, 0x402000] ∧ s.asked = 1 := by
    simpa [Except.map] using hcalls
  have hmore : ¬ (framesOf [0x400000, 0x401000, 0x402000]).length = 512 * (obtained onlyPage s.asked).length := by
    rw [hone]
    decide
  exact ⟨s, hrun, r, s', hok, not_not.1 fun hne => hmore (hasked.1 hne), fun hr => hmore (hzero.1 hr).1⟩

end Runs

end Yaos
