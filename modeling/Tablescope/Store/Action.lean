import Tablescope.Error

/-!
# Actions

What is done to a store may fail, and what it did to the store before it failed stays done. An
`Action` is a function from a state to a result, good or bad, and the state afterwards.
-/

namespace Tablescope

/-- A computation on a state that may fail without undoing what it did. -/
def Action (σ α : Type) := σ → Except Error α × σ

namespace Action

variable {σ α β : Type}

/-- Gives a result and leaves the state alone. -/
protected def pure (a : α) : Action σ α := fun s => (.ok a, s)

/-- One action and then another that depends on its result; a failure ends both. -/
protected def bind (x : Action σ α) (f : α → Action σ β) : Action σ β := fun s =>
  match x s with
  | (.ok a, t) => f a t
  | (.error e, t) => (.error e, t)

instance : Monad (Action σ) where
  pure := Action.pure
  bind := Action.bind

/-- Fails and leaves the state alone. -/
def fail (e : Error) : Action σ α := fun s => (.error e, s)

/-- A result that was found without looking at the state. -/
def ofExcept (r : Except Error α) : Action σ α := fun s => (r, s)

/-- A result that may be an input error. -/
def ofInput (r : Except InputError α) : Action σ α := ofExcept (r.mapError .input)

/-- A result that may be a schema error. -/
def ofSchema (r : Except SchemaError α) : Action σ α := ofExcept (r.mapError .schema)

@[simp] theorem pure_apply (a : α) (s : σ) : (pure a : Action σ α) s = (.ok a, s) := rfl

@[simp] theorem bind_apply (x : Action σ α) (f : α → Action σ β) (s : σ) :
    (x >>= f) s =
      match x s with
      | (.ok a, t) => f a t
      | (.error e, t) => (.error e, t) := rfl

@[simp] theorem fail_apply (e : Error) (s : σ) : (fail e : Action σ α) s = (.error e, s) := rfl

end Action

end Tablescope
