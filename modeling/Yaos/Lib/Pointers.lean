import Mathlib.Data.Finset.Card
import Mathlib.Logic.Function.Basic
import Mathlib.Logic.Relation

set_option autoImplicit false

/-! # Chains of pointers

Every element points to at most one other. A chain of pointers that is followed from an element stops, or
it runs into a ring. -/

namespace Pointers

variable {α : Type} {next : α → Option α} {x y p q : α}

/-- The chain from `x` stops. -/
inductive Stops (next : α → Option α) : α → Prop
  | stop {x : α} (h : next x = none) : Stops next x
  | step {x y : α} (h : next x = some y) (hy : Stops next y) : Stops next x

/-- The chain from `x` meets `y`. -/
def Meets (next : α → Option α) : α → α → Prop := Relation.ReflTransGen fun x y => next x = some y

/-- The chain is followed for at most `fuel` elements. -/
def chase (next : α → Option α) : Nat → α → Option α
  | 0, _ => none
  | fuel + 1, x =>
    match next x with
    | some y => chase next fuel y
    | none => some x

theorem Meets.first (h : Meets next x y) : x = y ∨ ∃ z, next x = some z ∧ Meets next z y := by
  rcases Relation.ReflTransGen.cases_head h with h | ⟨z, hz, hrest⟩
  · exact .inl h
  · exact .inr ⟨z, hz, hrest⟩

/-- A chain that stops does not come back to where it began. -/
theorem Stops.not_meets (h : Stops next x) (hnext : next x = some y) : ¬ Meets next y x := by
  induction h generalizing y with
  | stop hnone =>
      rw [hnone] at hnext
      cases hnext
  | @step x z hsome hz ih =>
      obtain rfl := Option.some.inj (hsome.symm.trans hnext)
      intro hback
      rcases hback.first with rfl | ⟨z', hz', hrest⟩
      · exact ih hsome .refl
      · exact ih hz' (hrest.tail hsome)

/-- A chain that does not meet `p` is the same whatever `p` points to. -/
theorem Stops.of_not_meets [DecidableEq α] {target : Option α} (h : Stops next x) (hp : ¬ Meets next x p) :
    Stops (Function.update next p target) x := by
  induction h with
  | @stop x hnone =>
      have hx : x ≠ p := by
        rintro rfl
        exact hp .refl
      exact .stop (by rw [Function.update_of_ne hx, hnone])
  | @step x y hsome hy ih =>
      have hx : x ≠ p := by
        rintro rfl
        exact hp .refl
      exact .step (by rw [Function.update_of_ne hx, hsome]) (ih fun hmeets => hp (.head hsome hmeets))

/-- Where every chain stops, and `p` is set to a chain that does not meet it, every chain still stops. -/
theorem Stops.update [DecidableEq α] {target : Option α} (hall : ∀ x, Stops next x)
    (htarget : ∀ q, target = some q → ¬ Meets next q p) (x : α) : Stops (Function.update next p target) x := by
  have hself : Stops (Function.update next p target) p := by
    cases hq : target with
    | none => exact .stop (Function.update_self ..)
    | some q => exact .step (Function.update_self ..) ((hall q).of_not_meets (htarget q hq))
  induction hall x with
  | @stop x hnone =>
      by_cases hx : x = p
      · rw [hx]
        exact hself
      · exact .stop (by rw [Function.update_of_ne hx, hnone])
  | @step x y hsome _ ih =>
      by_cases hx : x = p
      · rw [hx]
        exact hself
      · exact .step (by rw [Function.update_of_ne hx, hsome]) ih

theorem chase_none (fuel : Nat) (h : next x = none) : chase next (fuel + 1) x = some x := by
  rw [chase, h]

theorem chase_some (fuel : Nat) (h : next x = some y) : chase next (fuel + 1) x = chase next fuel y := by
  rw [chase, h]

/-- A chain that stops meets each element that points on at most once. -/
theorem Stops.chase [DecidableEq α] (h : Stops next x) {on : Finset α}
    (hon : ∀ y, Meets next x y → next y ≠ none → y ∈ on) :
    ∃ y, chase next (on.card + 1) x = some y := by
  induction h generalizing on with
  | @stop x hnone => exact ⟨x, chase_none _ hnone⟩
  | @step x y hsome hy ih =>
      have hx : x ∈ on := hon x .refl (by rw [hsome]; exact Option.some_ne_none y)
      have hback : ¬ Meets next y x := (Stops.step hsome hy).not_meets hsome
      have herase : ∀ w, Meets next y w → next w ≠ none → w ∈ on.erase x := by
        intro w hw hnext
        refine Finset.mem_erase.2 ⟨?_, hon w (.head hsome hw) hnext⟩
        rintro rfl
        exact hback hw
      obtain ⟨z, hz⟩ := ih herase
      rw [Finset.card_erase_add_one hx] at hz
      exact ⟨z, (chase_some _ hsome).trans hz⟩

/-- However long it is followed, a chain ends at the same element. -/
theorem chase_unique {m n : Nat} {z : α} (hm : Pointers.chase next m x = some y)
    (hn : Pointers.chase next n x = some z) : y = z := by
  induction m generalizing x n with
  | zero => cases hm
  | succ m ih =>
      cases n with
      | zero => cases hn
      | succ n =>
          cases hnext : next x with
          | none =>
              rw [chase_none m hnext] at hm
              rw [chase_none n hnext] at hn
              exact Option.some.inj (hm.symm.trans hn)
          | some w =>
              rw [chase_some m hnext] at hm
              rw [chase_some n hnext] at hn
              exact ih hm hn

theorem stops_of_chase {fuel : Nat} (h : Pointers.chase next fuel x = some y) : Stops next x := by
  induction fuel generalizing x with
  | zero => cases h
  | succ fuel ih =>
      cases hnext : next x with
      | none => exact .stop hnext
      | some z =>
          rw [chase_some fuel hnext] at h
          exact .step hnext (ih h)

/-- Followed far enough, a chain leads to the element that it ends at. -/
theorem chase_eq_some_iff [DecidableEq α] {on : Finset α}
    (hon : ∀ y, Meets next x y → next y ≠ none → y ∈ on) :
    Pointers.chase next (on.card + 1) x = some y ↔ Meets next x y ∧ next y = none := by
  constructor
  · generalize on.card + 1 = fuel
    intro h
    induction fuel generalizing x with
    | zero => cases h
    | succ fuel ih =>
        cases hnext : next x with
        | none =>
            rw [chase_none fuel hnext] at h
            obtain rfl := Option.some.inj h
            exact ⟨.refl, hnext⟩
        | some z =>
            rw [chase_some fuel hnext] at h
            obtain ⟨hmeets, hend⟩ := ih (fun w hw => hon w (.head hnext hw)) h
            exact ⟨.head hnext hmeets, hend⟩
  · rintro ⟨hmeets, hend⟩
    obtain ⟨fuel, hfuel⟩ : ∃ fuel, Pointers.chase next fuel x = some y := by
      clear hon
      induction hmeets using Relation.ReflTransGen.head_induction_on with
      | refl => exact ⟨1, chase_none 0 hend⟩
      | @head x z hsome _ ih =>
          obtain ⟨fuel, hfuel⟩ := ih
          exact ⟨fuel + 1, (chase_some fuel hsome).trans hfuel⟩
    obtain ⟨z, hz⟩ := (stops_of_chase hfuel).chase hon
    rw [hz, chase_unique hz hfuel]

/-- The chain up to `p` is the same whatever `p` points to. -/
theorem Meets.update [DecidableEq α] {target : Option α} (h : Meets next x p) :
    Meets (Function.update next p target) x p := by
  induction h using Relation.ReflTransGen.head_induction_on with
  | refl => exact .refl
  | @head x z hsome _ ih =>
      by_cases hx : x = p
      · rw [hx]
        exact .refl
      · exact .head (by rw [Function.update_of_ne hx, hsome]) ih

/-- Where `p` is set to a chain that meets it, there is a ring. -/
theorem not_stops_update [DecidableEq α] (h : Meets next q p) :
    ¬ Stops (Function.update next p (some q)) p :=
  fun hstops => hstops.not_meets (Function.update_self ..) h.update

end Pointers
