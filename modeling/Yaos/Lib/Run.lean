import Mathlib.Data.List.Basic

set_option autoImplicit false

/-! # Invariants of runs

A run is a list of operations done one after the other by a step that may fail. `Run.keeps` is the rule
for an invariant of the state alone, `Run.keeps_done` the one for an invariant that also speaks of the
operations done so far. `Run.Allowed.total` is the rule for operations with a precondition.
`Run.good_iff_allSafe` is for a property that some operations keep and the others
break at once, and `Run.total_good_iff_allowed` for one that asks in addition that the run comes back. -/

namespace Run

variable {α β ε : Type} {step : β → α → Except ε β}

theorem cons_eq_ok {a : α} {as : List α} {b b' : β} :
    (a :: as).foldlM step b = .ok b' ↔ ∃ b₁, step b a = .ok b₁ ∧ as.foldlM step b₁ = .ok b' := by
  rw [List.foldlM_cons]
  cases step b a with
  | error e => simp [bind, Except.bind]
  | ok b₁ => simp [bind, Except.bind]

theorem append_eq_ok {as cs : List α} {b b' : β} :
    (as ++ cs).foldlM step b = .ok b' ↔
      ∃ b₁, as.foldlM step b = .ok b₁ ∧ cs.foldlM step b₁ = .ok b' := by
  rw [List.foldlM_append]
  cases as.foldlM step b with
  | error e => simp [bind, Except.bind]
  | ok b₁ => simp [bind, Except.bind]

theorem keeps_done {inv : List α → β → Prop}
    (hstep : ∀ done a b b', inv done b → step b a = .ok b' → inv (done ++ [a]) b')
    {done as : List α} {b b' : β} (h : inv done b) (hrun : as.foldlM step b = .ok b') :
    inv (done ++ as) b' := by
  induction as generalizing done b with
  | nil =>
      obtain rfl := Except.ok.inj hrun
      simpa using h
  | cons a as ih =>
      obtain ⟨b₁, hb₁, hrest⟩ := cons_eq_ok.1 hrun
      have hmove : done ++ a :: as = done ++ [a] ++ as := by simp
      rw [hmove]
      exact ih (hstep done a b b₁ h hb₁) hrest

theorem keeps {inv : β → Prop} (hstep : ∀ a b b', inv b → step b a = .ok b' → inv b')
    {as : List α} {b b' : β} (h : inv b) (hrun : as.foldlM step b = .ok b') : inv b' := by
  induction as generalizing b with
  | nil =>
      obtain rfl := Except.ok.inj hrun
      exact h
  | cons a as ih =>
      obtain ⟨b₁, hb₁, hrest⟩ := cons_eq_ok.1 hrun
      exact ih (hstep a b b₁ h hb₁) hrest

/-! ## Preconditions -/

/-- Each operation is called in a state that allows it. -/
def Allowed (step : β → α → Except ε β) (pre : β → α → Prop) : β → List α → Prop
  | _, [] => True
  | b, a :: as => pre b a ∧ ∀ b', step b a = .ok b' → Allowed step pre b' as

theorem allowed_cons {pre : β → α → Prop} {a : α} {as : List α} {b b₁ : β} (h : step b a = .ok b₁) :
    Allowed step pre b (a :: as) ↔ pre b a ∧ Allowed step pre b₁ as := by
  refine and_congr_right fun _ => ⟨fun hall => hall b₁ h, fun hall b' hb' => ?_⟩
  obtain rfl := Except.ok.inj (h.symm.trans hb')
  exact hall

/-- Whether all preconditions hold can be computed. -/
instance decidableAllowed {pre : β → α → Prop} [∀ b a, Decidable (pre b a)] :
    ∀ (b : β) (as : List α), Decidable (Allowed step pre b as)
  | _, [] => isTrue trivial
  | b, a :: as =>
      match h : step b a with
      | .error _ => decidable_of_iff (pre b a)
          ⟨fun hpre => ⟨hpre, fun b' hb' => by rw [h] at hb'; cases hb'⟩, And.left⟩
      | .ok b₁ =>
          have : Decidable (Allowed step pre b₁ as) := decidableAllowed b₁ as
          decidable_of_iff (pre b a ∧ Allowed step pre b₁ as) (allowed_cons h).symm

/-- Where an operation that is allowed cannot fail, no run of such operations does. -/
theorem Allowed.total {inv : β → Prop} {pre : β → α → Prop}
    (hstep : ∀ a b, inv b → pre b a → ∃ b', step b a = .ok b' ∧ inv b') {as : List α} {b : β}
    (hpre : Allowed step pre b as) (h : inv b) : ∃ b', as.foldlM step b = .ok b' ∧ inv b' := by
  induction as generalizing b with
  | nil => exact ⟨b, rfl, h⟩
  | cons a as ih =>
      obtain ⟨ha, has⟩ := hpre
      obtain ⟨b₁, hb₁, h₁⟩ := hstep a b h ha
      obtain ⟨b', hb', h'⟩ := ih (has b₁ hb₁) h₁
      exact ⟨b', cons_eq_ok.2 ⟨b₁, hb₁, hb'⟩, h'⟩

/-! ## What breaks a property -/

/-- Each operation that comes back is safe in the state it is done in. -/
def AllSafe (step : β → α → Except ε β) (safe : β → α → Prop) : β → List α → Prop
  | _, [] => True
  | b, a :: as => ∀ b', step b a = .ok b' → safe b a ∧ AllSafe step safe b' as

theorem allSafe_cons {safe : β → α → Prop} {a : α} {as : List α} {b b₁ : β}
    (h : step b a = .ok b₁) :
    AllSafe step safe b (a :: as) ↔ safe b a ∧ AllSafe step safe b₁ as := by
  refine ⟨fun hsafe => hsafe b₁ h, fun hsafe b' hb' => ?_⟩
  obtain rfl := Except.ok.inj (h.symm.trans hb')
  exact hsafe

/-- Where the operations come back, whether all are safe can be computed. -/
instance decidableAllSafe {safe : β → α → Prop} [∀ b a, Decidable (safe b a)] :
    ∀ (b : β) (as : List α), Decidable (AllSafe step safe b as)
  | _, [] => isTrue trivial
  | b, a :: as =>
      match h : step b a with
      | .error _ => isTrue fun b' hb' => by
          rw [h] at hb'
          cases hb'
      | .ok b₁ =>
          have : Decidable (AllSafe step safe b₁ as) := decidableAllSafe b₁ as
          decidable_of_iff (safe b a ∧ AllSafe step safe b₁ as) (allSafe_cons h).symm

theorem AllSafe.append {safe : β → α → Prop} {as cs : List α} {b b₁ : β}
    (h : AllSafe step safe b (as ++ cs)) (hrun : as.foldlM step b = .ok b₁) :
    AllSafe step safe b as ∧ AllSafe step safe b₁ cs := by
  induction as generalizing b with
  | nil =>
      obtain rfl := Except.ok.inj hrun
      exact ⟨trivial, h⟩
  | cons a as ih =>
      obtain ⟨b₂, hb₂, hrest⟩ := cons_eq_ok.1 hrun
      obtain ⟨ha, has⟩ := (allSafe_cons hb₂).1 h
      obtain ⟨hleft, hright⟩ := ih has hrest
      exact ⟨(allSafe_cons hb₂).2 ⟨ha, hleft⟩, hright⟩

theorem AllSafe.concat {safe : β → α → Prop} {as : List α} {a : α} {b : β} (h : AllSafe step safe b as)
    (hlast : ∀ b₁, as.foldlM step b = .ok b₁ → safe b₁ a) : AllSafe step safe b (as ++ [a]) := by
  induction as generalizing b with
  | nil => exact fun b' _ => ⟨hlast b rfl, trivial⟩
  | cons c as ih =>
      intro b' hb'
      obtain ⟨hc, hrest⟩ := h b' hb'
      exact ⟨hc, ih hrest fun b₁ hrun => hlast b₁ (cons_eq_ok.2 ⟨b', hb', hrun⟩)⟩

theorem AllSafe.keeps {inv : β → Prop} {safe : β → α → Prop}
    (hkeep : ∀ a b b', inv b → step b a = .ok b' → safe b a → inv b') {as : List α} {b b' : β}
    (hsafe : AllSafe step safe b as) (h : inv b) (hrun : as.foldlM step b = .ok b') : inv b' := by
  induction as generalizing b with
  | nil =>
      obtain rfl := Except.ok.inj hrun
      exact h
  | cons a as ih =>
      obtain ⟨b₁, hb₁, hrest⟩ := cons_eq_ok.1 hrun
      obtain ⟨ha, has⟩ := hsafe b₁ hb₁
      exact ih has (hkeep a b b₁ h hb₁ ha) hrest

/-- Where a safe operation keeps the invariant and every other one breaks the property, a run has the
    property throughout exactly when all its operations are safe. -/
theorem good_iff_allSafe {inv good : β → Prop} {safe : β → α → Prop} (hgood : ∀ b, inv b → good b)
    (hkeep : ∀ a b b', inv b → step b a = .ok b' → safe b a → inv b')
    (hbreak : ∀ a b b', inv b → step b a = .ok b' → good b' → safe b a) {b : β} {as : List α}
    (h : inv b) :
    (∀ pre, pre <+: as → ∀ b', pre.foldlM step b = .ok b' → good b') ↔ AllSafe step safe b as := by
  induction as generalizing b with
  | nil =>
      refine iff_of_true (fun pre hpre b' hb' => ?_) trivial
      obtain rfl := List.prefix_nil.1 hpre
      obtain rfl := Except.ok.inj hb'
      exact hgood b h
  | cons a as ih =>
      constructor
      · intro hall b₁ hb₁
        have hone : good b₁ := hall [a] (by simp) b₁ (cons_eq_ok.2 ⟨b₁, hb₁, rfl⟩)
        have hsafe := hbreak a b b₁ h hb₁ hone
        refine ⟨hsafe, (ih (hkeep a b b₁ h hb₁ hsafe)).1 fun pre hpre b' hb' => ?_⟩
        exact hall (a :: pre) (List.cons_prefix_cons.2 ⟨rfl, hpre⟩) b' (cons_eq_ok.2 ⟨b₁, hb₁, hb'⟩)
      · rintro hsafe (_ | ⟨c, pre⟩) hpre b' hb'
        · obtain rfl := Except.ok.inj hb'
          exact hgood b h
        · obtain ⟨rfl, hpre'⟩ := List.cons_prefix_cons.1 hpre
          obtain ⟨b₁, hb₁, hrest⟩ := cons_eq_ok.1 hb'
          obtain ⟨hc, hcs⟩ := hsafe b₁ hb₁
          exact (ih (hkeep _ b b₁ h hb₁ hc)).2 hcs pre hpre' b' hrest

/-- Where an allowed operation comes back with the invariant kept, and one that comes back with the
    property was allowed, a run comes back with the property throughout exactly when all its operations are
    allowed. -/
theorem total_good_iff_allowed {inv good : β → Prop} {pre : β → α → Prop} (hgood : ∀ b, inv b → good b)
    (hkeep : ∀ a b, inv b → pre b a → ∃ b', step b a = .ok b' ∧ inv b')
    (hbreak : ∀ a b b', inv b → step b a = .ok b' → good b' → pre b a) {b : β} {as : List α}
    (h : inv b) :
    ((∃ b', as.foldlM step b = .ok b') ∧
      ∀ as', as' <+: as → ∀ b', as'.foldlM step b = .ok b' → good b') ↔ Allowed step pre b as := by
  induction as generalizing b with
  | nil =>
      refine iff_of_true ⟨⟨b, rfl⟩, fun as' has' b' hb' => ?_⟩ trivial
      obtain rfl := List.prefix_nil.1 has'
      obtain rfl := Except.ok.inj hb'
      exact hgood b h
  | cons a as ih =>
      constructor
      · rintro ⟨⟨b', hrun⟩, hall⟩
        obtain ⟨b₁, hb₁, hrest⟩ := cons_eq_ok.1 hrun
        have ha := hbreak a b b₁ h hb₁ (hall [a] (by simp) b₁ (cons_eq_ok.2 ⟨b₁, hb₁, rfl⟩))
        refine ⟨ha, fun b₂ hb₂ => ?_⟩
        obtain rfl := Except.ok.inj (hb₁.symm.trans hb₂)
        obtain ⟨b₂, hb₂, h₂⟩ := hkeep a b h ha
        obtain rfl := Except.ok.inj (hb₁.symm.trans hb₂)
        refine (ih h₂).1 ⟨⟨b', hrest⟩, fun as' has' b'' hb'' => ?_⟩
        exact hall (a :: as') (List.cons_prefix_cons.2 ⟨rfl, has'⟩) b'' (cons_eq_ok.2 ⟨b₁, hb₁, hb''⟩)
      · rintro ⟨ha, has⟩
        obtain ⟨b₁, hb₁, h₁⟩ := hkeep a b h ha
        obtain ⟨⟨b', hrest⟩, hall⟩ := (ih h₁).2 (has b₁ hb₁)
        refine ⟨⟨b', cons_eq_ok.2 ⟨b₁, hb₁, hrest⟩⟩, ?_⟩
        rintro (_ | ⟨c, as'⟩) has' b'' hb''
        · obtain rfl := Except.ok.inj hb''
          exact hgood b h
        · obtain ⟨rfl, hpre⟩ := List.cons_prefix_cons.1 has'
          obtain ⟨b₂, hb₂, hrest'⟩ := cons_eq_ok.1 hb''
          obtain rfl := Except.ok.inj (hb₁.symm.trans hb₂)
          exact hall as' hpre b'' hrest'

end Run
