import Mathlib.Logic.Function.Basic
import Mathlib.Data.List.Infix

set_option autoImplicit false

/-! # Trees of tables in a memory of frames

A memory maps a frame and an index to an entry; `link d e` tells whether the entry `e` of a table at
depth `d` leads to a further table, and to which frame. A table is named by the path of indices that
leads to it from the root, innermost index first, so that the entry `n` of the table at `p` has the
path `n :: p`. `ent` reads the entry at a path; where there is no table, it reads 0.

The point of naming tables by paths is that in a tree (`IsTree`: no frame is a table twice) a write to
one entry changes what is read at this path and below it, and nowhere else. -/

namespace TableTree

variable {φ ι ε : Type}

/-! ## Tables -/

section Tables

variable (link : Nat → ε → Option φ) (root : φ) (mem : φ → ι → ε)

/-- The frame of the table at a path. -/
def tableAt : List ι → Option φ
  | [] => some root
  | n :: p => (tableAt p).bind fun t => link p.length (mem t n)

/-- No frame is the table of two paths. -/
def IsTree : Prop :=
  ∀ p q t, tableAt link root mem p = some t → tableAt link root mem q = some t → p = q

/-- A frame that is no table. -/
def OffTree (f : φ) : Prop := ∀ p, tableAt link root mem p ≠ some f

end Tables

/-- A path does not lie below one of its own entries. -/
theorem not_cons_suffix_self (n : ι) (p : List ι) : ¬ (n :: p) <:+ p := by
  intro h
  have hlen := h.length_le
  rw [List.length_cons] at hlen
  omega

section TableLemmas

variable {link : Nat → ε → Option φ} {root : φ} {mem mem' : φ → ι → ε}

@[simp] theorem tableAt_nil : tableAt link root mem [] = some root := rfl

/-- There is no table below a missing one. -/
theorem tableAt_none_of_suffix {p q : List ι} (h : p <:+ q)
    (hp : tableAt link root mem p = none) : tableAt link root mem q = none := by
  induction q with
  | nil =>
      rw [List.suffix_nil] at h
      rwa [h] at hp
  | cons n q ih =>
      rcases List.suffix_cons_iff.1 h with rfl | h
      · exact hp
      · simp [tableAt, ih h]

/-- Memories that agree on all tables hold the same tree. -/
theorem tableAt_congr (h : ∀ p t, tableAt link root mem p = some t → mem' t = mem t) (p : List ι) :
    tableAt link root mem' p = tableAt link root mem p := by
  induction p with
  | nil => rfl
  | cons n p ih =>
      cases hp : tableAt link root mem p with
      | none => simp [tableAt, ih, hp]
      | some t => simp [tableAt, ih, hp, h p t hp]

theorem IsTree.congr (htree : IsTree link root mem)
    (h : ∀ p t, tableAt link root mem p = some t → mem' t = mem t) : IsTree link root mem' := by
  intro p q t hp hq
  rw [tableAt_congr h] at hp hq
  exact htree p q t hp hq

end TableLemmas

/-! ## Entries -/

section Entries

variable [Zero ε] (link : Nat → ε → Option φ) (root : φ) (mem : φ → ι → ε)

/-- The entry at a path. -/
def ent : List ι → ε
  | [] => 0
  | n :: p => match tableAt link root mem p with
    | some t => mem t n
    | none => 0

end Entries

section EntryLemmas

variable [Zero ε] {link : Nat → ε → Option φ} {root : φ} {mem mem' : φ → ι → ε}

theorem ent_of_tableAt {p : List ι} {t : φ} (h : tableAt link root mem p = some t) (n : ι) :
    ent link root mem (n :: p) = mem t n := by
  simp [ent, h]

theorem ent_of_none {p : List ι} (h : tableAt link root mem p = none) (n : ι) :
    ent link root mem (n :: p) = 0 := by
  simp [ent, h]

/-- The table below an entry. -/
theorem tableAt_cons (hzero : ∀ d, link d 0 = none) (n : ι) (p : List ι) :
    tableAt link root mem (n :: p) = link p.length (ent link root mem (n :: p)) := by
  cases h : tableAt link root mem p with
  | none => simp [tableAt, h, ent, hzero]
  | some t => simp [tableAt, h, ent]

theorem ent_congr (h : ∀ p t, tableAt link root mem p = some t → mem' t = mem t) (p : List ι) :
    ent link root mem' p = ent link root mem p := by
  cases p with
  | nil => rfl
  | cons n p =>
      cases hp : tableAt link root mem p with
      | none => rw [ent_of_none hp, ent_of_none ((tableAt_congr h p).trans hp)]
      | some t => rw [ent_of_tableAt hp, ent_of_tableAt ((tableAt_congr h p).trans hp), h p t hp]

end EntryLemmas

/-! ## Writing an entry of a table -/

section Write

variable [DecidableEq φ] [DecidableEq ι]

/-- Write one entry. -/
def setEntry (mem : φ → ι → ε) (t : φ) (n : ι) (e : ε) : φ → ι → ε :=
  Function.update mem t (Function.update (mem t) n e)

@[simp] theorem setEntry_self (mem : φ → ι → ε) (t : φ) (n : ι) (e : ε) :
    setEntry mem t n e t n = e := by
  simp [setEntry]

theorem setEntry_of_ne (mem : φ → ι → ε) {t t' : φ} {n n' : ι} (e : ε)
    (h : t' = t → n' ≠ n) : setEntry mem t n e t' n' = mem t' n' := by
  unfold setEntry
  by_cases ht : t' = t
  · subst ht
    simp [h rfl]
  · simp [ht]

theorem setEntry_frame (mem : φ → ι → ε) {t t' : φ} (n : ι) (e : ε) (h : t' ≠ t) :
    setEntry mem t n e t' = mem t' :=
  Function.update_of_ne h _ _

variable {link : Nat → ε → Option φ} {root : φ} {mem : φ → ι → ε} {p₀ : List ι} {t₀ f : φ} {n₀ : ι}
  {e : ε}

omit [DecidableEq ι] in
/-- Filling a frame that is no table changes no table. -/
theorem agree_of_offTree (hf : OffTree link root mem f) (v : ι → ε) :
    ∀ p t, tableAt link root mem p = some t → Function.update mem f v t = mem t := by
  intro p t hp
  have hne : t ≠ f := fun he => hf p (he ▸ hp)
  exact Function.update_of_ne hne _ _

/-- Away from the entry and from what is below it, the tables stay. -/
theorem tableAt_setEntry (htree : IsTree link root mem) (h₀ : tableAt link root mem p₀ = some t₀)
    {q : List ι} (hq : ¬ (n₀ :: p₀) <:+ q) :
    tableAt link root (setEntry mem t₀ n₀ e) q = tableAt link root mem q := by
  induction q with
  | nil => rfl
  | cons n q ih =>
      rw [List.suffix_cons_iff, not_or] at hq
      have ih := ih hq.2
      cases hp : tableAt link root mem q with
      | none => simp [tableAt, ih, hp]
      | some t =>
          have hne : setEntry mem t₀ n₀ e t n = mem t n := by
            refine setEntry_of_ne mem e fun ht hn => hq.1 ?_
            subst ht hn
            rw [htree p₀ q t h₀ hp]
          simp [tableAt, ih, hp, hne]

theorem tableAt_setEntry_parent (htree : IsTree link root mem)
    (h₀ : tableAt link root mem p₀ = some t₀) :
    tableAt link root (setEntry mem t₀ n₀ e) p₀ = some t₀ :=
  (tableAt_setEntry htree h₀ (not_cons_suffix_self n₀ p₀)).trans h₀

theorem tableAt_setEntry_self (htree : IsTree link root mem)
    (h₀ : tableAt link root mem p₀ = some t₀) :
    tableAt link root (setEntry mem t₀ n₀ e) (n₀ :: p₀) = link p₀.length e := by
  simp [tableAt, tableAt_setEntry_parent htree h₀]

/-- Every table after the write was a table before, or lies at the entry or below it. -/
theorem tableAt_of_setEntry (htree : IsTree link root mem)
    (h₀ : tableAt link root mem p₀ = some t₀) {q : List ι} {t : φ}
    (hq : tableAt link root (setEntry mem t₀ n₀ e) q = some t) :
    tableAt link root mem q = some t ∨ (n₀ :: p₀) <:+ q := by
  by_cases hs : (n₀ :: p₀) <:+ q
  · exact .inr hs
  · exact .inl ((tableAt_setEntry htree h₀ hs).symm.trans hq)

section Ent

variable [Zero ε]

theorem ent_setEntry (htree : IsTree link root mem) (h₀ : tableAt link root mem p₀ = some t₀)
    {q : List ι} (hq : ¬ (n₀ :: p₀) <:+ q) :
    ent link root (setEntry mem t₀ n₀ e) q = ent link root mem q := by
  cases q with
  | nil => rfl
  | cons n q =>
      rw [List.suffix_cons_iff, not_or] at hq
      have htab := tableAt_setEntry (e := e) htree h₀ hq.2
      cases hp : tableAt link root mem q with
      | none => rw [ent_of_none hp, ent_of_none (htab.trans hp)]
      | some t =>
          rw [ent_of_tableAt hp, ent_of_tableAt (htab.trans hp)]
          refine setEntry_of_ne mem e fun ht hn => hq.1 ?_
          subst ht hn
          rw [htree p₀ q t h₀ hp]

theorem ent_setEntry_self (htree : IsTree link root mem)
    (h₀ : tableAt link root mem p₀ = some t₀) :
    ent link root (setEntry mem t₀ n₀ e) (n₀ :: p₀) = e := by
  rw [ent_of_tableAt (tableAt_setEntry_parent htree h₀), setEntry_self]

end Ent

/-! ### An entry that is no link -/

section Unlinked

theorem tableAt_setEntry_unlinked (htree : IsTree link root mem)
    (h₀ : tableAt link root mem p₀ = some t₀) (he : link p₀.length e = none) {q : List ι}
    (hq : (n₀ :: p₀) <:+ q) : tableAt link root (setEntry mem t₀ n₀ e) q = none :=
  tableAt_none_of_suffix hq ((tableAt_setEntry_self htree h₀).trans he)

/-- The tables after the write are among those before it. -/
theorem tableAt_of_setEntry_unlinked (htree : IsTree link root mem)
    (h₀ : tableAt link root mem p₀ = some t₀) (he : link p₀.length e = none) {q : List ι} {t : φ}
    (hq : tableAt link root (setEntry mem t₀ n₀ e) q = some t) :
    tableAt link root mem q = some t := by
  rcases tableAt_of_setEntry htree h₀ hq with h | h
  · exact h
  · rw [tableAt_setEntry_unlinked htree h₀ he h] at hq
    cases hq

theorem IsTree.setEntry_unlinked (htree : IsTree link root mem)
    (h₀ : tableAt link root mem p₀ = some t₀) (he : link p₀.length e = none) :
    IsTree link root (setEntry mem t₀ n₀ e) := fun p q t hp hq =>
  htree p q t (tableAt_of_setEntry_unlinked htree h₀ he hp)
    (tableAt_of_setEntry_unlinked htree h₀ he hq)

end Unlinked

/-! ### A link to a new table that links nothing itself -/

section Linked

/-- `e` links the frame `f`, which is no table yet and holds no links. -/
structure LinksFresh (link : Nat → ε → Option φ) (root : φ) (mem : φ → ι → ε) (p₀ : List ι) (e : ε)
    (f : φ) : Prop where
  link_eq : link p₀.length e = some f
  fresh : OffTree link root mem f
  noLinks : ∀ n, link (p₀.length + 1) (mem f n) = none

omit [DecidableEq φ] [DecidableEq ι] in
theorem LinksFresh.ne (h : LinksFresh link root mem p₀ e f)
    (h₀ : tableAt link root mem p₀ = some t₀) : f ≠ t₀ := fun he => h.fresh p₀ (he ▸ h₀)

theorem tableAt_setEntry_linked (htree : IsTree link root mem)
    (h₀ : tableAt link root mem p₀ = some t₀) (h : LinksFresh link root mem p₀ e f) :
    tableAt link root (setEntry mem t₀ n₀ e) (n₀ :: p₀) = some f :=
  (tableAt_setEntry_self htree h₀).trans h.link_eq

/-- Below the new table there is nothing. -/
theorem tableAt_setEntry_linked_below (htree : IsTree link root mem)
    (h₀ : tableAt link root mem p₀ = some t₀) (h : LinksFresh link root mem p₀ e f) {q : List ι}
    (hq : (n₀ :: p₀) <:+ q) (hne : q ≠ n₀ :: p₀) :
    tableAt link root (setEntry mem t₀ n₀ e) q = none := by
  induction q with
  | nil => simp at hq
  | cons n q ih =>
      rcases List.suffix_cons_iff.1 hq with heq | hq
      · exact absurd heq.symm hne
      · by_cases hself : q = n₀ :: p₀
        · subst hself
          simp [tableAt, tableAt_setEntry_parent htree h₀, h.link_eq,
            setEntry_frame mem n₀ e (h.ne h₀), h.noLinks]
        · simp [tableAt, ih hq hself]

/-- The tables after the write: those before, and the new one. -/
theorem tableAt_of_setEntry_linked (htree : IsTree link root mem)
    (h₀ : tableAt link root mem p₀ = some t₀) (h : LinksFresh link root mem p₀ e f) {q : List ι}
    {t : φ} (hq : tableAt link root (setEntry mem t₀ n₀ e) q = some t) :
    tableAt link root mem q = some t ∨ q = n₀ :: p₀ ∧ t = f := by
  rcases tableAt_of_setEntry htree h₀ hq with hold | hs
  · exact .inl hold
  · right
    by_cases hself : q = n₀ :: p₀
    · subst hself
      rw [tableAt_setEntry_linked htree h₀ h] at hq
      exact ⟨rfl, (Option.some.inj hq).symm⟩
    · rw [tableAt_setEntry_linked_below htree h₀ h hs hself] at hq
      cases hq

theorem IsTree.setEntry_linked (htree : IsTree link root mem)
    (h₀ : tableAt link root mem p₀ = some t₀) (h : LinksFresh link root mem p₀ e f) :
    IsTree link root (setEntry mem t₀ n₀ e) := by
  intro p q t hp hq
  rcases tableAt_of_setEntry_linked htree h₀ h hp with hp | ⟨rfl, rfl⟩ <;>
    rcases tableAt_of_setEntry_linked htree h₀ h hq with hq | ⟨rfl, ht⟩
  · exact htree p q t hp hq
  · exact absurd (ht ▸ hp) (h.fresh p)
  · exact absurd hq (h.fresh q)
  · rfl

variable [Zero ε]

theorem ent_setEntry_linked (htree : IsTree link root mem)
    (h₀ : tableAt link root mem p₀ = some t₀) (h : LinksFresh link root mem p₀ e f) (m : ι) :
    ent link root (setEntry mem t₀ n₀ e) (m :: n₀ :: p₀) = mem f m := by
  rw [ent_of_tableAt (tableAt_setEntry_linked htree h₀ h), setEntry_frame mem n₀ e (h.ne h₀)]

/-- Two levels below the entry and further down, nothing is read. -/
theorem ent_setEntry_linked_below (htree : IsTree link root mem)
    (h₀ : tableAt link root mem p₀ = some t₀) (h : LinksFresh link root mem p₀ e f) {q : List ι}
    (hq : (n₀ :: p₀) <:+ q) (hne : q ≠ n₀ :: p₀) (n : ι) :
    ent link root (setEntry mem t₀ n₀ e) (n :: q) = 0 :=
  ent_of_none (tableAt_setEntry_linked_below htree h₀ h hq hne) n

end Linked

end Write

end TableTree
