import Mathlib.Tactic.Common

/-!
# PicotoolRs.Lib.Outcome

What a call of a fallible function can come to: a value, an error it reports,
or a **panic**. Panics are kept apart from errors because a caller can handle
the second but not the first: no `bind` and no error handler below ever turns a
`panic` back into a value, so a proof that a run does not end in `panic` is a
proof that no arithmetic overflow and no out-of-range index was met anywhere in
it.

The inversion lemmas (`bind_eq_ok`, `bind_eq_err`, `bind_eq_panic`) are how
later proofs take a computation apart; nothing outside this module unfolds
`bind`.
-/

namespace Lib

/-- The outcome of a fallible computation. -/
inductive Outcome (ε α : Type)
  /-- It returned a value. -/
  | ok (a : α)
  /-- It reported an error. -/
  | err (e : ε)
  /-- It panicked. -/
  | panic
  deriving Repr, DecidableEq

namespace Outcome

variable {ε ε' α β σ : Type}

/-- Go on with the value, if there is one. -/
def bind (x : Outcome ε α) (f : α → Outcome ε β) : Outcome ε β :=
  match x with
  | ok a => f a
  | err e => err e
  | panic => panic

instance : Monad (Outcome ε) where
  pure := ok
  bind := bind

instance : LawfulMonad (Outcome ε) :=
  LawfulMonad.mk' _ (fun x => by cases x <;> rfl) (fun _ _ => rfl)
    (fun x _ _ => by cases x <;> rfl)

/-- A computation that can only panic, as one that could also report errors. -/
def ofOption : Option α → Outcome ε α
  | some a => ok a
  | none => panic

instance : MonadLift Option (Outcome ε) where
  monadLift := ofOption

/-- Rewrite the error that is reported. -/
def mapErr (f : ε → ε') : Outcome ε α → Outcome ε' α
  | ok a => ok a
  | err e => err (f e)
  | panic => panic

/-- What is left of an outcome without the value. -/
def void (x : Outcome ε α) : Outcome ε Unit := x.bind fun _ => ok ()

@[simp] theorem void_ok (a : α) : (ok a : Outcome ε α).void = ok () := rfl

@[simp] theorem void_err (e : ε) : (err e : Outcome ε α).void = err e := rfl

@[simp] theorem void_panic : (panic : Outcome ε α).void = panic := rfl

@[simp] theorem mapErr_ok (f : ε → ε') (a : α) : (ok a : Outcome ε α).mapErr f = ok a := rfl

@[simp] theorem mapErr_err (f : ε → ε') (e : ε) : (err e : Outcome ε α).mapErr f = err (f e) := rfl

@[simp] theorem mapErr_panic (f : ε → ε') : (panic : Outcome ε α).mapErr f = panic := rfl

@[simp] theorem pure_eq_ok (a : α) : (pure a : Outcome ε α) = ok a := rfl

@[simp] theorem ok_bind (a : α) (f : α → Outcome ε β) : (ok a >>= f) = f a := rfl

@[simp] theorem err_bind (e : ε) (f : α → Outcome ε β) : (err e >>= f) = err e := rfl

@[simp] theorem panic_bind (f : α → Outcome ε β) : ((panic : Outcome ε α) >>= f) = panic := rfl

@[simp] theorem monadLift_some (a : α) :
    (monadLift (some a) : Outcome ε α) = ok a := rfl

/-! ### Taking a computation apart -/

theorem bind_eq_ok {x : Outcome ε α} {f : α → Outcome ε β} {b : β} :
    (x >>= f) = ok b ↔ ∃ a, x = ok a ∧ f a = ok b := by
  cases x <;> simp

theorem bind_eq_err {x : Outcome ε α} {f : α → Outcome ε β} {e : ε} :
    (x >>= f) = err e ↔ x = err e ∨ ∃ a, x = ok a ∧ f a = err e := by
  cases x <;> simp

theorem bind_eq_panic {x : Outcome ε α} {f : α → Outcome ε β} :
    (x >>= f) = panic ↔ x = panic ∨ ∃ a, x = ok a ∧ f a = panic := by
  cases x <;> simp

theorem mapErr_eq_ok {f : ε → ε'} {x : Outcome ε α} {a : α} : x.mapErr f = ok a ↔ x = ok a := by
  cases x <;> simp

theorem mapErr_eq_panic {f : ε → ε'} {x : Outcome ε α} : x.mapErr f = panic ↔ x = panic := by
  cases x <;> simp

theorem mapErr_eq_err {f : ε → ε'} {x : Outcome ε α} {e' : ε'} :
    x.mapErr f = err e' ↔ ∃ e, x = err e ∧ f e = e' := by
  cases x <;> simp

end Outcome

end Lib
