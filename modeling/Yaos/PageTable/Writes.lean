import Yaos.PageTable.Walk

set_option autoImplicit false

/-! # Writing the page tables

The two kinds of writes the code makes: an entry that leads nowhere (a page, or 0), and a link to a
frame that has just been taken from the frame source. Each comes with what it does to the entries at
all paths, and keeps `Sound`: the tables form a tree, and the frames still to be handed out for tables
are proper frames, all different, and not in use as tables. -/

namespace Yaos

open Word TableTree

/-- A page frame the direct map reaches, other than frame 0. -/
structure Frame (f : Nat) : Prop where
  nonzero : f ≠ 0
  aligned : f % 0x1000 = 0
  reached : f + physVirtStart ≤ physVirtEnd

instance (f : Nat) : Decidable (Frame f) :=
  decidable_of_iff (f ≠ 0 ∧ f % 0x1000 = 0 ∧ f + physVirtStart ≤ physVirtEnd)
    ⟨fun h => ⟨h.1, h.2.1, h.2.2⟩, fun h => ⟨h.nonzero, h.aligned, h.reached⟩⟩

/-- An entry that leads to a table. -/
structure IsLink (e : Nat) : Prop where
  present : Present e
  small : ¬ Large e
  frame : Frame (alignDown 0x1000 e)

/-- The tables form a tree, and the frames on offer for tables are used nowhere in it. -/
structure PgTables.Sound (s : PgTables) : Prop where
  tree : s.Tree
  root : s.pml4 < 2 ^ 64
  frame : ∀ f ∈ s.table ++ s.pt, Frame f
  unused : ∀ f ∈ s.table ++ s.pt, OffTree pgLink s.pml4 s.frames f
  nodup : (s.table ++ s.pt).Nodup

theorem Frame.lt {f : Nat} (h : Frame f) : f < 2 ^ 64 := by
  have := h.reached
  unfold physVirtEnd at this
  omega

theorem P2V_frame {f : Nat} (h : Frame f) : P2V f = f + physVirtStart := by
  have := h.reached
  exact wadd_eq (by unfold physVirtEnd at this; omega)

theorem V2P_P2V {f : Nat} (h : Frame f) : V2P (P2V f) = .ok f := by
  have := h.reached
  rw [P2V_frame h, V2P_eq ⟨by omega, by omega⟩, Nat.add_sub_cancel]

@[simp] theorem wsub_P2V {t : Nat} (h : t < 2 ^ 64) : wsub (P2V t) physVirtStart = t := by
  unfold wsub P2V wadd physVirtStart
  omega

theorem alignDown_P2V {e : Nat} (h : Frame (alignDown 0x1000 e)) :
    alignDown 0x1000 (P2V e) = P2V (alignDown 0x1000 e) := by
  have hr := h.reached
  rw [P2V_frame h]
  unfold alignDown physVirtStart physVirtEnd at *
  unfold P2V wadd physVirtStart
  omega

theorem isLink_or {f flags : Nat} (hf : Frame f) (hlt : flags < 0x1000) (hp : Present flags)
    (hl : ¬ Large flags) : IsLink (f ||| flags) ∧ alignDown 0x1000 (f ||| flags) = f := by
  have ha := hf.aligned
  have hdown : alignDown 0x1000 (f ||| flags) = f := by
    rw [or_flags ha hlt]
    unfold alignDown
    omega
  have hframe : Frame (alignDown 0x1000 (f ||| flags)) := by rwa [hdown]
  refine ⟨⟨?_, ?_, hframe⟩, hdown⟩ <;>
  · rw [or_flags ha hlt]
    omega

theorem IsLink.ne_zero {e : Nat} (h : IsLink e) : e ≠ 0 := by
  have := h.present
  omega

theorem IsLink.pgLink_eq {e : Nat} (h : IsLink e) {d : Nat} (hd : d < 3) :
    pgLink d e = some (alignDown 0x1000 e) := pgLink_link hd h.present h.small

theorem IsLink.not_largePage {e : Nat} (h : IsLink e) : ¬ isLargePage e = true := fun hl =>
  h.small (isLargePage_iff.1 hl).2

/-- The table below a link. -/
theorem PgTables.tableOf_link {s : PgTables} {q : List (Fin 512)} (hq : 0 < q.length ∧ q.length ≤ 3)
    (h : IsLink (s.entry q)) : s.tableOf q = some (alignDown 0x1000 (s.entry q)) := by
  cases q with
  | nil => exact absurd hq.1 (by decide)
  | cons n p => rw [PgTables.tableOf_cons, h.pgLink_eq (Nat.lt_of_succ_le hq.2)]

theorem PgTables.tableOf_zero {s : PgTables} {q : List (Fin 512)} (hq : 0 < q.length)
    (h : s.entry q = 0) : s.tableOf q = none := by
  cases q with
  | nil => exact absurd hq (by decide)
  | cons n p => rw [PgTables.tableOf_cons, h, pgLink_zero]

section Access

variable {s : PgTables} {p : List (Fin 512)} {t : Nat} (n : Fin 512)

theorem PgTables.load_P2V (ht : s.tableOf p = some t) (hb : t < 2 ^ 64) :
    s.load (P2V t) n = s.entry (n :: p) := by
  rw [PgTables.entry_cons ht, PgTables.load, wsub_P2V hb]

theorem PgTables.store_P2V (e : Nat) (hb : t < 2 ^ 64) :
    s.store (P2V t) n e = { s with frames := setEntry s.frames t n e } := by
  rw [PgTables.store, wsub_P2V hb]

theorem PgTables.fill_P2V (v : Fin 512 → Nat) (hb : t < 2 ^ 64) :
    s.fill (P2V t) v = { s with frames := Function.update s.frames t v } := by
  rw [PgTables.fill, wsub_P2V hb]

end Access

/-! ## An entry that leads nowhere -/

section Store

variable {s : PgTables} {p : List (Fin 512)} {t : Nat} {n : Fin 512} {e : Nat}

theorem PgTables.entry_store_self (hs : s.Sound) (ht : s.tableOf p = some t) (hb : t < 2 ^ 64) :
    (s.store (P2V t) n e).entry (n :: p) = e := by
  rw [PgTables.store_P2V n e hb]
  exact ent_setEntry_self hs.tree ht

theorem PgTables.entry_store_off (hs : s.Sound) (ht : s.tableOf p = some t) (hb : t < 2 ^ 64)
    {q : List (Fin 512)} (hq : ¬ (n :: p) <:+ q) :
    (s.store (P2V t) n e).entry q = s.entry q := by
  rw [PgTables.store_P2V n e hb]
  exact ent_setEntry hs.tree ht hq

theorem PgTables.Sound.store (hs : s.Sound) (ht : s.tableOf p = some t) (hb : t < 2 ^ 64)
    (he : pgLink p.length e = none) : (s.store (P2V t) n e).Sound := by
  rw [PgTables.store_P2V n e hb]
  exact
    { tree := hs.tree.setEntry_unlinked ht he
      root := hs.root
      frame := hs.frame
      unused := fun f hf q hq => hs.unused f hf q (tableAt_of_setEntry_unlinked hs.tree ht he hq)
      nodup := hs.nodup }

/-- A frame that may still be handed out is not written. -/
theorem PgTables.frames_store (hs : s.Sound) (ht : s.tableOf p = some t) (hb : t < 2 ^ 64) {f : Nat}
    (hf : f ∈ s.table ++ s.pt) : (s.store (P2V t) n e).frames f = s.frames f := by
  rw [PgTables.store_P2V n e hb]
  have hne : f ≠ t := fun he => hs.unused f hf p (he ▸ ht)
  exact setEntry_frame s.frames n e hne

end Store

/-! ## A link to a new table -/

section Link

variable {s : PgTables} {p : List (Fin 512)} {t f : Nat} {n : Fin 512} {e : Nat}
  {v : Fin 512 → Nat}

/-- `f` is taken from the frame source: a proper frame that is no table and will not be handed out
    again. -/
structure PgTables.Taken (s : PgTables) (f : Nat) : Prop where
  frame : Frame f
  unused : OffTree pgLink s.pml4 s.frames f
  gone : f ∉ s.table ++ s.pt

/-- What links a taken frame at entry `n` of the table at `p`. -/
structure PgTables.Links (s : PgTables) (p : List (Fin 512)) (t f e : Nat) (v : Fin 512 → Nat) :
    Prop where
  sound : s.Sound
  parent : s.tableOf p = some t
  bound : t < 2 ^ 64
  taken : s.Taken f
  link_eq : pgLink p.length e = some f
  noLinks : ∀ m, pgLink (p.length + 1) (v m) = none

/-- The state after filling the taken frame and linking it. -/
def PgTables.linkFrame (s : PgTables) (f : Nat) (v : Fin 512 → Nat) (t : Nat) (n : Fin 512)
    (e : Nat) : PgTables :=
  (s.fill (P2V f) v).store (P2V t) n e

theorem PgTables.Links.linkFrame_eq (h : s.Links p t f e v) :
    s.linkFrame f v t n e =
      { s with frames := setEntry (Function.update s.frames f v) t n e } := by
  rw [PgTables.linkFrame, PgTables.fill_P2V v h.taken.frame.lt, PgTables.store_P2V n e h.bound]

theorem PgTables.Links.agree (h : s.Links p t f e v) (q : List (Fin 512)) (u : Nat)
    (hq : tableAt pgLink s.pml4 s.frames q = some u) :
    Function.update s.frames f v u = s.frames u :=
  agree_of_offTree h.taken.unused v q u hq

theorem PgTables.Links.tree (h : s.Links p t f e v) :
    IsTree pgLink s.pml4 (Function.update s.frames f v) :=
  h.sound.tree.congr h.agree

theorem PgTables.Links.parent_filled (h : s.Links p t f e v) :
    tableAt pgLink s.pml4 (Function.update s.frames f v) p = some t :=
  (tableAt_congr h.agree p).trans h.parent

theorem PgTables.Links.fresh (h : s.Links p t f e v) :
    LinksFresh pgLink s.pml4 (Function.update s.frames f v) p e f where
  link_eq := h.link_eq
  fresh := fun q hq => h.taken.unused q ((tableAt_congr h.agree q).symm.trans hq)
  noLinks := fun m => by rw [Function.update_self]; exact h.noLinks m

theorem PgTables.Links.entry_self (h : s.Links p t f e v) :
    (s.linkFrame f v t n e).entry (n :: p) = e := by
  rw [h.linkFrame_eq]
  exact ent_setEntry_self h.tree h.parent_filled

theorem PgTables.Links.entry_new (h : s.Links p t f e v) (m : Fin 512) :
    (s.linkFrame f v t n e).entry (m :: n :: p) = v m := by
  rw [h.linkFrame_eq]
  exact (ent_setEntry_linked h.tree h.parent_filled h.fresh m).trans
    (by rw [Function.update_self])

theorem PgTables.Links.entry_below (h : s.Links p t f e v) {q : List (Fin 512)}
    (hq : (n :: p) <:+ q) (hne : q ≠ n :: p) (m : Fin 512) :
    (s.linkFrame f v t n e).entry (m :: q) = 0 := by
  rw [h.linkFrame_eq]
  exact ent_setEntry_linked_below h.tree h.parent_filled h.fresh hq hne m

theorem PgTables.Links.entry_off (h : s.Links p t f e v) {q : List (Fin 512)}
    (hq : ¬ (n :: p) <:+ q) : (s.linkFrame f v t n e).entry q = s.entry q := by
  rw [h.linkFrame_eq]
  exact (ent_setEntry h.tree h.parent_filled hq).trans (ent_congr h.agree q)

/-- A cleared table under an entry that held nothing changes this entry alone. -/
theorem PgTables.Links.entry_cleared (h : s.Links p t f e fun _ => 0)
    (hzero : s.entry (n :: p) = 0) {q : List (Fin 512)} (hne : q ≠ n :: p) :
    (s.linkFrame f (fun _ => 0) t n e).entry q = s.entry q := by
  by_cases hq : (n :: p) <:+ q
  · cases q with
    | nil => rfl
    | cons m q =>
        have hsuf : (n :: p) <:+ q := (List.suffix_cons_iff.1 hq).resolve_left (Ne.symm hne)
        -- below an entry that was no link there was no table
        have hnone : s.tableOf q = none := by
          exact tableAt_none_of_suffix hsuf (PgTables.tableOf_zero (by simp) hzero)
        rw [PgTables.entry_cons_none hnone]
        by_cases hself : q = n :: p
        · rw [hself, h.entry_new]
        · exact h.entry_below hsuf hself m
  · exact h.entry_off hq

theorem PgTables.Links.sound_after (h : s.Links p t f e v) : (s.linkFrame f v t n e).Sound := by
  rw [h.linkFrame_eq]
  refine ⟨h.tree.setEntry_linked h.parent_filled h.fresh, h.sound.root, h.sound.frame, ?_,
    h.sound.nodup⟩
  intro g hg q hq
  rcases tableAt_of_setEntry_linked h.tree h.parent_filled h.fresh hq with hold | ⟨-, rfl⟩
  · exact h.sound.unused g hg q ((tableAt_congr h.agree q).symm.trans hold)
  · exact h.taken.gone hg

/-- The frames still to be handed out are not written. -/
theorem PgTables.Links.frames_eq (h : s.Links p t f e v) {g : Nat} (hg : g ∈ s.table ++ s.pt) :
    (s.linkFrame f v t n e).frames g = s.frames g := by
  have hgf : g ≠ f := fun he => h.taken.gone (he ▸ hg)
  have hgt : g ≠ t := fun he => h.sound.unused g hg p (he ▸ h.parent)
  rw [h.linkFrame_eq]
  exact (setEntry_frame _ n e hgt).trans (Function.update_of_ne hgf _ _)

end Link

/-! ## Taking a frame for a table -/

theorem PgTables.Sound.take_table {s : PgTables} (hs : s.Sound) {f : Nat} {rest : List Nat}
    (h : s.table = f :: rest) :
    PgTables.Sound { s with table := rest } ∧ PgTables.Taken { s with table := rest } f := by
  have hsub : ∀ g ∈ rest ++ s.pt, g ∈ s.table ++ s.pt := by
    intro g hg
    rw [h]
    exact List.mem_cons_of_mem f hg
  have hnodup : (f :: (rest ++ s.pt)).Nodup := by
    have := hs.nodup
    rwa [h, List.cons_append] at this
  have hmem : f ∈ s.table ++ s.pt := by simp [h]
  exact ⟨⟨hs.tree, hs.root, fun g hg => hs.frame g (hsub g hg),
      fun g hg => hs.unused g (hsub g hg), (List.nodup_cons.1 hnodup).2⟩,
    ⟨hs.frame f hmem, hs.unused f hmem, (List.nodup_cons.1 hnodup).1⟩⟩

theorem PgTables.Sound.take_pt {s : PgTables} (hs : s.Sound) {f : Nat} {rest : List Nat}
    (h : s.pt = f :: rest) :
    PgTables.Sound { s with pt := rest } ∧ PgTables.Taken { s with pt := rest } f := by
  have hperm : (s.table ++ s.pt).Perm (f :: (s.table ++ rest)) := by
    rw [h]
    exact List.perm_middle
  have hsub : ∀ g ∈ s.table ++ rest, g ∈ s.table ++ s.pt := fun g hg =>
    hperm.mem_iff.2 (List.mem_cons_of_mem f hg)
  have hnodup := hperm.nodup_iff.1 hs.nodup
  have hmem : f ∈ s.table ++ s.pt := hperm.mem_iff.2 List.mem_cons_self
  exact ⟨⟨hs.tree, hs.root, fun g hg => hs.frame g (hsub g hg),
      fun g hg => hs.unused g (hsub g hg), (List.nodup_cons.1 hnodup).2⟩,
    ⟨hs.frame f hmem, hs.unused f hmem, (List.nodup_cons.1 hnodup).1⟩⟩

theorem P2V_aligned {f : Nat} (h : Frame f) : P2V f % 0x1000 = 0 := by
  have hr := h.aligned
  rw [P2V_frame h]
  unfold physVirtStart
  omega

theorem P2V_ne_zero {f : Nat} (h : Frame f) : P2V f ≠ 0 := by
  rw [P2V_frame h]
  unfold physVirtStart
  omega

theorem newTable_eq {s : PgTables} {f : Nat} {rest : List Nat} (h : s.table = f :: rest)
    (hf : Frame f) (text : String) (v : Fin 512 → Nat) :
    newTable s text v = .ok (some (P2V f), { s with table := rest }.fill (P2V f) v) := by
  dsimp only [newTable]
  rw [h, List.headD_cons, List.tail_cons, assert_pos (P2V_aligned hf), ok_bind,
    if_neg (P2V_ne_zero hf)]

theorem linkTable_eq {s : PgTables} {f : Nat} (hf : Frame f) (p : Nat) (n : Fin 512)
    (flags : Nat) : linkTable s p n (P2V f) flags = .ok (s.store p n (f ||| flags)) := by
  unfold linkTable
  rw [V2P_P2V hf, ok_bind]

/-- Making and linking a table, when the source has a frame. -/
theorem linkNewTable_eq {s : PgTables} {f : Nat} {rest : List Nat} (h : s.table = f :: rest)
    (hf : Frame f) (text : String) (v : Fin 512 → Nat) (flags t : Nat) (n : Fin 512) :
    linkNewTable s text v flags (P2V t) n =
      .ok (some (P2V f), { s with table := rest }.linkFrame f v t n (f ||| flags)) := by
  unfold linkNewTable
  rw [newTable_eq h hf, ok_bind]
  show (do let s ← linkTable _ _ _ (P2V f) flags; Except.ok (some (P2V f), s)) = _
  rw [linkTable_eq hf, ok_bind, PgTables.linkFrame]

/-! ## The empty address space -/

/-- With a cleared PML4 there is no other table. -/
theorem PgTables.tableOf_blank {s : PgTables} (hblank : ∀ n, s.frames s.pml4 n = 0)
    {q : List (Fin 512)} (hq : q ≠ []) : s.tableOf q = none := by
  induction q with
  | nil => exact absurd rfl hq
  | cons n p ih =>
      by_cases hp : p = []
      · subst hp
        rw [PgTables.tableOf_cons, PgTables.entry_cons rfl, hblank, pgLink_zero]
      · exact tableAt_none_of_suffix (List.suffix_cons n p) (ih hp)

theorem PgTables.entry_blank {s : PgTables} (hblank : ∀ n, s.frames s.pml4 n = 0)
    (q : List (Fin 512)) : s.entry q = 0 := by
  cases q with
  | nil => rfl
  | cons n p =>
      by_cases hp : p = []
      · subst hp
        rw [PgTables.entry_cons rfl, hblank]
      · exact PgTables.entry_cons_none (PgTables.tableOf_blank hblank hp) n

theorem PgTables.Sound.blank {s : PgTables} (hblank : ∀ n, s.frames s.pml4 n = 0)
    (hroot : s.pml4 < 2 ^ 64) (hframe : ∀ f ∈ s.table ++ s.pt, Frame f ∧ f ≠ s.pml4)
    (hnodup : (s.table ++ s.pt).Nodup) : s.Sound := by
  have honly : ∀ q t, s.tableOf q = some t → q = [] ∧ t = s.pml4 := by
    intro q t hq
    by_cases hnil : q = []
    · subst hnil
      exact ⟨rfl, (Option.some.inj hq).symm⟩
    · rw [PgTables.tableOf_blank hblank hnil] at hq
      cases hq
  exact
    { tree := fun p q t hp hq => (honly p t hp).1.trans (honly q t hq).1.symm
      root := hroot
      frame := fun f hf => (hframe f hf).1
      unused := fun f hf q hq => (hframe f hf).2 (honly q f hq).2
      nodup := hnodup }

end Yaos
