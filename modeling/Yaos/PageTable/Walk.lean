import Yaos.PageTable
import Mathlib.Tactic.NormNum

set_option autoImplicit false

/-! # The 4-level translation

`translate` is the walk the processor makes: from the PML4 down, an entry that is not present ends it,
an entry with the page-size bit maps a page of 1 GiB or 2 MiB, and the last table maps 4 KiB pages.
The address of an entry is taken from bit 12 (21, 30) upwards, as the kernel writes it.

Seen as a tree of tables, the translation of an address depends on three entries only: those at the
paths of its PDPTE, PDE and PTE (`translate_eq`). Everything proved about the code below speaks of
entries at paths. -/

namespace Yaos

open Word TableTree

/-- `PTE_P` is set. -/
abbrev Present (e : Nat) : Prop := e % 2 = 1

/-- `PTE_PS` is set. -/
abbrev Large (e : Nat) : Prop := e / 0x80 % 2 = 1

/-- One level of the walk: entry `n` of the table in frame `t`, where a page has `size` bytes. -/
def walkLevel (s : PgTables) (size t : Nat) (n : Fin 512) (vaddr : Nat)
    (below : Nat → Option Nat) : Option Nat :=
  let e := s.frames t n
  if Present e then
    if Large e then some (alignDown size e + vaddr % size) else below (alignDown 0x1000 e)
  else none

/-- The physical address `vaddr` is mapped to. -/
def translate (s : PgTables) (vaddr : Nat) : Option Nat :=
  let e := s.frames s.pml4 (tableIndex pml4Shift vaddr)
  if Present e ∧ ¬ Large e then
    walkLevel s 0x40000000 (alignDown 0x1000 e) (tableIndex pdpShift vaddr) vaddr fun pd =>
      walkLevel s 0x200000 pd (tableIndex pdShift vaddr) vaddr fun pt =>
        let e := s.frames pt (tableIndex pteShift vaddr)
        if Present e then some (alignDown 0x1000 e + vaddr % 0x1000) else none
  else none

/-! ## Tables by path -/

/-- The table an entry of a table at depth `d` leads to. -/
def pgLink (d e : Nat) : Option Nat :=
  if d < 3 ∧ Present e ∧ ¬ Large e then some (alignDown 0x1000 e) else none

@[simp] theorem pgLink_zero (d : Nat) : pgLink d 0 = none := by
  simp [pgLink]

theorem pgLink_pte (e : Nat) : pgLink 3 e = none := by
  simp [pgLink]

theorem pgLink_link {d e : Nat} (hd : d < 3) (hp : Present e) (hl : ¬ Large e) :
    pgLink d e = some (alignDown 0x1000 e) := if_pos ⟨hd, hp, hl⟩

/-- The table at the end of a path of links from the PML4. -/
def PgTables.tableOf (s : PgTables) (p : List (Fin 512)) : Option Nat :=
  tableAt pgLink s.pml4 s.frames p

/-- The entry at the end of a path; 0 where the path breaks off. -/
def PgTables.entry (s : PgTables) (q : List (Fin 512)) : Nat := ent pgLink s.pml4 s.frames q

/-- No frame is used as two tables. -/
def PgTables.Tree (s : PgTables) : Prop := IsTree pgLink s.pml4 s.frames

/-- The path to the PML4 entry of an address. -/
def pml4ePath (vaddr : Nat) : List (Fin 512) := [tableIndex pml4Shift vaddr]

/-- The path to the entry of the page directory pointer table. -/
def pdptePath (vaddr : Nat) : List (Fin 512) := tableIndex pdpShift vaddr :: pml4ePath vaddr

/-- The path to the page directory entry. -/
def pdePath (vaddr : Nat) : List (Fin 512) := tableIndex pdShift vaddr :: pdptePath vaddr

/-- The path to the page table entry. -/
def ptePath (vaddr : Nat) : List (Fin 512) := tableIndex pteShift vaddr :: pdePath vaddr

@[simp] theorem length_pml4ePath (vaddr : Nat) : (pml4ePath vaddr).length = 1 := rfl

@[simp] theorem length_pdptePath (vaddr : Nat) : (pdptePath vaddr).length = 2 := rfl

@[simp] theorem length_pdePath (vaddr : Nat) : (pdePath vaddr).length = 3 := rfl

@[simp] theorem length_ptePath (vaddr : Nat) : (ptePath vaddr).length = 4 := rfl

theorem PgTables.tableOf_cons (s : PgTables) (n : Fin 512) (p : List (Fin 512)) :
    s.tableOf (n :: p) = pgLink p.length (s.entry (n :: p)) :=
  tableAt_cons pgLink_zero n p

theorem PgTables.entry_cons {s : PgTables} {p : List (Fin 512)} {t : Nat}
    (h : s.tableOf p = some t) (n : Fin 512) : s.entry (n :: p) = s.frames t n :=
  ent_of_tableAt h n

theorem PgTables.entry_cons_none {s : PgTables} {p : List (Fin 512)} (h : s.tableOf p = none)
    (n : Fin 512) : s.entry (n :: p) = 0 :=
  ent_of_none h n

/-- There are four levels. -/
theorem PgTables.entry_deep (s : PgTables) {q : List (Fin 512)} (hq : 4 < q.length) :
    s.entry q = 0 := by
  match q with
  | n :: m :: p =>
      refine PgTables.entry_cons_none ?_ n
      rw [PgTables.tableOf_cons, pgLink, if_neg]
      rintro ⟨hlt, -⟩
      rw [List.length_cons, List.length_cons] at hq
      omega

theorem PgTables.entry_pml4e (s : PgTables) (vaddr : Nat) :
    s.entry (pml4ePath vaddr) = s.frames s.pml4 (tableIndex pml4Shift vaddr) :=
  PgTables.entry_cons rfl _

/-- What the processor makes of the PDPTE, the PDE and the PTE of `vaddr`. -/
def readEntries (pdpte pde pte vaddr : Nat) : Option Nat :=
  if Present pdpte ∧ Large pdpte then some (alignDown 0x40000000 pdpte + vaddr % 0x40000000)
  else if Present pde ∧ Large pde then some (alignDown 0x200000 pde + vaddr % 0x200000)
  else if Present pte then some (alignDown 0x1000 pte + vaddr % 0x1000)
  else none

theorem readEntries_none {pdpte pde pte vaddr : Nat} (hpdpte : ¬ (Present pdpte ∧ Large pdpte))
    (hpde : ¬ (Present pde ∧ Large pde)) (hpte : ¬ Present pte) :
    readEntries pdpte pde pte vaddr = none := by
  rw [readEntries, if_neg hpdpte, if_neg hpde, if_neg hpte]

/-- An entry that is present and leads to no table is a page. -/
theorem walkLevel_eq {s : PgTables} {size t vaddr : Nat} {n : Fin 512} {p : List (Fin 512)}
    {below : Nat → Option Nat} (hp : p.length < 3) (ht : s.tableOf p = some t) :
    walkLevel s size t n vaddr below =
      if Present (s.entry (n :: p)) ∧ Large (s.entry (n :: p)) then
        some (alignDown size (s.entry (n :: p)) + vaddr % size)
      else (s.tableOf (n :: p)).bind below := by
  rw [PgTables.tableOf_cons, PgTables.entry_cons ht, walkLevel]
  by_cases hpres : Present (s.frames t n)
  · by_cases hlarge : Large (s.frames t n)
    · rw [if_pos hpres, if_pos hlarge, if_pos ⟨hpres, hlarge⟩]
    · rw [if_pos hpres, if_neg hlarge, if_neg (fun h => hlarge h.2), pgLink_link hp hpres hlarge]
      rfl
  · rw [if_neg hpres, if_neg (fun h => hpres h.1), pgLink, if_neg (fun h => hpres h.2.1)]
    rfl

theorem translate_eq (s : PgTables) (vaddr : Nat) :
    translate s vaddr =
      readEntries (s.entry (pdptePath vaddr)) (s.entry (pdePath vaddr)) (s.entry (ptePath vaddr))
        vaddr := by
  rw [translate]
  cases hpdp : s.tableOf (pml4ePath vaddr) with
  | none =>
      -- no PDP: all lower entries read 0
      have hpd : s.tableOf (pdptePath vaddr) = none :=
        tableAt_none_of_suffix (List.suffix_cons _ _) hpdp
      have hpt : s.tableOf (pdePath vaddr) = none :=
        tableAt_none_of_suffix (List.suffix_cons _ _) hpd
      have hno : ¬ (Present (s.frames s.pml4 (tableIndex pml4Shift vaddr)) ∧
          ¬ Large (s.frames s.pml4 (tableIndex pml4Shift vaddr))) := by
        intro h
        rw [pml4ePath, PgTables.tableOf_cons, ← pml4ePath, PgTables.entry_pml4e,
          pgLink_link (by decide) h.1 h.2] at hpdp
        cases hpdp
      rw [if_neg hno, pdptePath, pdePath, ptePath, PgTables.entry_cons_none hpdp,
        PgTables.entry_cons_none hpd, PgTables.entry_cons_none hpt,
        readEntries_none (by omega) (by omega) (by omega)]
  | some pdp =>
      have hlink := hpdp
      rw [pml4ePath, PgTables.tableOf_cons, ← pml4ePath, PgTables.entry_pml4e, pgLink] at hlink
      split at hlink
      case isFalse => cases hlink
      case isTrue h =>
        rw [if_pos h.2, Option.some.inj hlink, walkLevel_eq (by simp) hpdp, ← pdptePath,
          readEntries]
        split
        · rfl
        · cases hpd : s.tableOf (pdptePath vaddr) with
          | none =>
              have hpt : s.tableOf (pdePath vaddr) = none :=
                tableAt_none_of_suffix (List.suffix_cons _ _) hpd
              rw [pdePath, ptePath, PgTables.entry_cons_none hpd, PgTables.entry_cons_none hpt,
                if_neg (by omega), if_neg (by omega)]
              rfl
          | some pd =>
              rw [Option.bind_some, walkLevel_eq (by simp) hpd, ← pdePath]
              split
              · rfl
              · cases hpt : s.tableOf (pdePath vaddr) with
                | none =>
                    rw [ptePath, PgTables.entry_cons_none hpt, if_neg (by omega)]
                    rfl
                | some pt => rw [Option.bind_some, ptePath, PgTables.entry_cons hpt]

/-! ## Paths and addresses -/

/-- The virtual page of an address: bits 12 to 47. -/
def virtPage (vaddr : Nat) : Nat := vaddr / 0x1000 % 2 ^ 36

/-- The 2 MiB region of an address: bits 21 to 47. -/
def virtRegion (vaddr : Nat) : Nat := vaddr / 0x200000 % 2 ^ 27

theorem pdptePath_eq_iff {a b : Nat} :
    pdptePath a = pdptePath b ↔ a / 0x40000000 % 2 ^ 18 = b / 0x40000000 % 2 ^ 18 := by
  simp only [pdptePath, pml4ePath, List.cons.injEq, tableIndex, Fin.mk.injEq, pdpShift, pml4Shift,
    and_true]
  omega

theorem pdePath_eq_iff {a b : Nat} : pdePath a = pdePath b ↔ virtRegion a = virtRegion b := by
  simp only [pdePath, pdptePath, pml4ePath, List.cons.injEq, tableIndex, Fin.mk.injEq, virtRegion,
    pdShift, pdpShift, pml4Shift, and_true]
  omega

theorem ptePath_eq_iff {a b : Nat} : ptePath a = ptePath b ↔ virtPage a = virtPage b := by
  rw [ptePath, ptePath, List.cons.injEq, pdePath_eq_iff]
  simp only [tableIndex, Fin.mk.injEq, virtRegion, virtPage, pteShift]
  omega

theorem virtRegion_eq_of_virtPage {a b : Nat} (h : virtPage a = virtPage b) : virtRegion a = virtRegion b := by
  unfold virtPage at h
  unfold virtRegion
  omega

theorem tableIndex_alignDown (shift vaddr : Nat)
    (h : shift = 21 ∨ shift = 30 ∨ shift = 39) :
    tableIndex shift (alignDown 0x200000 vaddr) = tableIndex shift vaddr := by
  simp only [tableIndex, Fin.mk.injEq, alignDown]
  rcases h with rfl | rfl | rfl <;> omega

/-- Paths depend on the low 48 bits of an address. -/
theorem ptePath_congr {a b : Nat} (h : a % 2 ^ 48 = b % 2 ^ 48) : ptePath a = ptePath b := by
  rw [ptePath_eq_iff]
  unfold virtPage
  omega

theorem pdePath_congr {a b : Nat} (h : a % 2 ^ 48 = b % 2 ^ 48) : pdePath a = pdePath b :=
  (List.cons.inj (ptePath_congr h)).2

theorem pdptePath_congr {a b : Nat} (h : a % 2 ^ 48 = b % 2 ^ 48) : pdptePath a = pdptePath b :=
  (List.cons.inj (pdePath_congr h)).2

theorem pml4ePath_congr {a b : Nat} (h : a % 2 ^ 48 = b % 2 ^ 48) : pml4ePath a = pml4ePath b :=
  (List.cons.inj (pdptePath_congr h)).2

/-- The paths through the page table of `vaddr`. -/
theorem pdePath_suffix_ptePath {a b : Nat} : pdePath a <:+ ptePath b ↔ virtRegion a = virtRegion b := by
  rw [← pdePath_eq_iff, ptePath, List.suffix_cons_iff]
  constructor
  · rintro (h | h)
    · simpa using congrArg List.length h
    · exact h.eq_of_length (by simp)
  · rintro h
    exact .inr (h ▸ List.suffix_rfl)

/-! ## Entry bits -/

theorem present_iff_testBit (e : Nat) : Present e ↔ e.testBit 0 = true := by
  simp [Nat.testBit_zero]

theorem large_iff_testBit (e : Nat) : Large e ↔ e.testBit 7 = true := by
  simp [Nat.testBit_eq_decide_div_mod_eq]

theorem or_flags {a f : Nat} (ha : a % 0x1000 = 0) (hf : f < 0x1000) : a ||| f = a + f := by
  have hdiv : a = 2 ^ 12 * (a / 0x1000) := by omega
  rw [hdiv]
  exact (Nat.two_pow_add_eq_or_of_lt hf _).symm

theorem and_low (e : Nat) {m : Nat} (hm : m < 2 ^ 8) : e &&& m = e % 2 ^ 8 &&& m := by
  have h := Nat.and_mod_two_pow (a := e) (b := m) (n := 8)
  rwa [Nat.mod_eq_of_lt hm, Nat.mod_eq_of_lt (Nat.and_le_right.trans_lt hm)] at h

theorem isLargePage_iff {e : Nat} : isLargePage e = true ↔ Present e ∧ Large e := by
  have hlow : ∀ x < 2 ^ 8, isLargePage x = true ↔ Present x ∧ Large x := by decide +kernel
  have hmod := hlow (e % 2 ^ 8) (Nat.mod_lt _ (by decide))
  rw [isLargePage, ← and_low e (by decide)] at hmod
  rw [isLargePage, hmod]
  omega

theorem and_pteP_eq_zero {e : Nat} : e &&& pteP = 0 ↔ ¬ Present e := by
  rw [pteP, Nat.and_one_is_mod]
  omega

theorem and_ptePS_ne_zero {e : Nat} : e &&& ptePS ≠ 0 ↔ Large e := by
  have hlow : ∀ x < 2 ^ 8, x &&& ptePS ≠ 0 ↔ Large x := by decide +kernel
  have hmod := hlow (e % 2 ^ 8) (Nat.mod_lt _ (by decide))
  rw [← and_low e (by decide)] at hmod
  rw [hmod]
  omega

end Yaos
