import Mathlib.Tactic.Common

/-! # Programs that ask for what they read

A program asks for the value at a place and goes on with the answer. Over a memory that answers it has a result and a
list of the places it asks for, both taken from the same program, so that what is read cannot differ from what the
result depends on.
-/

/-- A program with a result in `α` that asks for values `β` at places `ι`. -/
inductive Query (ι β α : Type) where
  | done (result : α)
  | ask (place : ι) (next : β → Query ι β α)

namespace Query

variable {ι β α γ : Type} (memory : ι → β)

/-- The result over a memory. -/
def eval : Query ι β α → α
  | done result => result
  | ask place next => (next (memory place)).eval

/-- The places asked for, in their order. -/
def asked : Query ι β α → List ι
  | done _ => []
  | ask place next => place :: (next (memory place)).asked

/-- Go on with the result. -/
def andThen : Query ι β α → (α → Query ι β γ) → Query ι β γ
  | done result, rest => rest result
  | ask place next, rest => ask place fun answer => (next answer).andThen rest

instance : Monad (Query ι β) where
  pure := done
  bind := andThen

@[simp] theorem eval_pure (result : α) : (pure result : Query ι β α).eval memory = result := rfl

@[simp] theorem asked_pure (result : α) : (pure result : Query ι β α).asked memory = [] := rfl

@[simp] theorem eval_bind (first : Query ι β α) (rest : α → Query ι β γ) :
    (first >>= rest).eval memory = (rest (first.eval memory)).eval memory := by
  change (first.andThen rest).eval memory = _
  induction first with
  | done result => rfl
  | ask place next ih => exact ih (memory place)

/-- A program in two parts asks for what the first part asks for and then for what the second does. -/
@[simp] theorem asked_bind (first : Query ι β α) (rest : α → Query ι β γ) :
    (first >>= rest).asked memory = first.asked memory ++ (rest (first.eval memory)).asked memory := by
  change (first.andThen rest).asked memory = _
  induction first with
  | done result => rfl
  | ask place next ih => exact congrArg (place :: ·) (ih (memory place))

end Query
