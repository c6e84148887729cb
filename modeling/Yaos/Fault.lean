set_option autoImplicit false

/-! # How a kernel call ends without a result

The kernel is built with `-DDEBUG`, so `ASSERT` is live: a failed assertion prints its text and
calls `panic`, and `panic` never returns. A loop over a corrupted list may also never end. What a call
does with memory that was freed cannot be told from the source. -/

namespace Yaos

/-- The ways a call does not return. -/
inductive Fault
  /-- `panic(msg)`: prints and spins for ever. -/
  | panic (msg : String)
  /-- `ASSERT(cond)` with `cond` false. -/
  | assertion (cond : String)
  /-- A null pointer is dereferenced. -/
  | null
  /-- A loop that never ends. -/
  | hang
  /-- Freed memory is used. -/
  | freed
deriving DecidableEq, Repr

/-- What a call returns that has done what it was asked for. -/
def OK : Nat := 0

/-- What a call returns that got no memory. -/
def ENOMEM : Nat := 12

/-- What a call returns whose arguments make no sense. -/
def EINVAL : Nat := 22

/-- `ASSERT(c)` for the condition `c`, printed as `text`. -/
def assert (text : String) (c : Prop) [Decidable c] : Except Fault Unit :=
  if c then .ok () else .error (.assertion text)

theorem assert_pos {text : String} {c : Prop} [Decidable c] (h : c) : assert text c = .ok () :=
  if_pos h

theorem assert_neg {text : String} {c : Prop} [Decidable c] (h : ¬ c) :
    assert text c = .error (.assertion text) := if_neg h

theorem ok_bind {ε α β : Type} (a : α) (f : α → Except ε β) : (Except.ok a >>= f) = f a := rfl

/-- An assertion that holds is passed. -/
theorem assert_bind {text : String} {c : Prop} [Decidable c] {α : Type} {f : Unit → Except Fault α}
    (h : c) : (assert text c >>= f) = f () := by
  rw [assert_pos h, ok_bind]

theorem bind_eq_ok {ε α β : Type} {x : Except ε α} {f : α → Except ε β} {b : β} :
    (x >>= f) = .ok b ↔ ∃ a, x = .ok a ∧ f a = .ok b := by
  cases x with
  | error e => simp [bind, Except.bind]
  | ok a => simp [bind, Except.bind]

theorem map_eq_ok {ε α β : Type} {x : Except ε α} {f : α → β} {b : β} :
    x.map f = .ok b ↔ ∃ a, x = .ok a ∧ f a = b := by
  cases x with
  | error e => simp [Except.map]
  | ok a => simp [Except.map]

/-- What a call returns, where something computed from it is known. -/
theorem of_map_eq_ok {ε α β : Type} {x : Except ε α} {f : α → β} {a : α} {b : β} (h : x.map f = .ok b)
    (hx : x = .ok a) : f a = b := by
  rw [hx] at h
  exact Except.ok.inj h

theorem assert_bind_eq_ok {text : String} {c : Prop} [Decidable c] {α : Type}
    {f : Unit → Except Fault α} {a : α} :
    (assert text c >>= f) = .ok a ↔ c ∧ f () = .ok a := by
  by_cases h : c
  · simp [assert, h, bind, Except.bind]
  · simp [assert, h, bind, Except.bind]

end Yaos
