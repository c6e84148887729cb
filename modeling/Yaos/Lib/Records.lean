set_option autoImplicit false

/-! # Records that carry their lengths

Records lie one behind the other, and each says how long it is. `len` gives the length at an offset, and `fits`
whether the record there is still in the buffer. Following the lengths ends exactly where no record on the way
has the length 0. -/

namespace Records

/-- The offsets of the records from `p` on, up to the first that does not fit. -/
inductive From (len : Nat → Nat) (fits : Nat → Prop) : Nat → List Nat → Prop
  | stop {p : Nat} (h : ¬ fits p) : From len fits p []
  | next {p : Nat} {ps : List Nat} (h : fits p) (rest : From len fits (p + len p) ps) : From len fits p (p :: ps)

/-- The offsets that one comes to from `p`, the last of them with or without a record that fits. -/
inductive Reached (len : Nat → Nat) (fits : Nat → Prop) (p : Nat) : Nat → Prop
  | start : Reached len fits p p
  | next {q : Nat} (h : Reached len fits p q) (hfits : fits q) : Reached len fits p (q + len q)

section

variable {len : Nat → Nat} {fits : Nat → Prop} {p q e : Nat} {ps qs : List Nat}

theorem Reached.cons (hfits : fits p) (h : Reached len fits (p + len p) q) : Reached len fits p q := by
  induction h with
  | start => exact .next .start hfits
  | next _ hq ih => exact ih.next hq

theorem Reached.cases_first (h : Reached len fits p q) :
    q = p ∨ fits p ∧ Reached len fits (p + len p) q := by
  induction h with
  | start => exact .inl rfl
  | next _ hq ih =>
      rcases ih with rfl | ⟨hp, hrest⟩
      · exact .inr ⟨hq, .start⟩
      · exact .inr ⟨hp, hrest.next hq⟩

theorem From.unique (h : From len fits p ps) (h' : From len fits p qs) : ps = qs := by
  induction h generalizing qs with
  | stop hstop =>
      cases h' with
      | stop => rfl
      | next hfits => exact absurd hfits hstop
  | next hfits _ ih =>
      cases h' with
      | stop hstop => exact absurd hfits hstop
      | next _ hrest => rw [ih hrest]

theorem From.len_ne (h : From len fits p ps) : ∀ q, Reached len fits p q → fits q → len q ≠ 0 := by
  induction h with
  | stop hstop =>
      intro q hq hfits
      rcases hq.cases_first with rfl | ⟨hp, -⟩
      · exact absurd hfits hstop
      · exact absurd hp hstop
  | next hp hrest ih =>
      intro q hq hfits hzero
      rcases hq.cases_first with rfl | ⟨-, hq⟩
      · -- the records would go on as they began
        rw [hzero, Nat.add_zero] at hrest
        exact List.cons_ne_self _ _ (hrest.unique (.next hp (by rwa [hzero, Nat.add_zero]))).symm
      · exact ih q hq hfits hzero

theorem From.of_len_ne (hend : ∀ q, fits q → q + len q ≤ e)
    (hlen : ∀ q, Reached len fits p q → fits q → len q ≠ 0) : ∃ ps, From len fits p ps := by
  induction h : e - p using Nat.strongRecOn generalizing p with
  | ind n ih =>
      by_cases hfits : fits p
      · have hpos := hlen p .start hfits
        have hle := hend p hfits
        obtain ⟨ps, hps⟩ := ih (e - (p + len p)) (by omega) (fun q hq => hlen q (hq.cons hfits)) rfl
        exact ⟨p :: ps, .next hfits hps⟩
      · exact ⟨[], .stop hfits⟩

/-- Each record lies behind those before it. -/
theorem From.ascending (h : From len fits p ps) : ps.Pairwise (· < ·) ∧ ∀ q ∈ ps, p ≤ q := by
  have hlen := h.len_ne
  induction h with
  | stop => exact ⟨.nil, by simp⟩
  | @next p ps hfits hrest ih =>
      obtain ⟨hasc, hge⟩ := ih hrest.len_ne
      have hpos := hlen p .start hfits
      refine ⟨List.pairwise_cons.2 ⟨fun q hq => ?_, hasc⟩, fun q hq => ?_⟩
      · have := hge q hq
        omega
      · rcases List.mem_cons.1 hq with rfl | hq
        · exact Nat.le_refl _
        · have := hge q hq
          omega

end

end Records
