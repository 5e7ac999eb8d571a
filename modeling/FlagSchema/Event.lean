import FlagSchema.Error

/-!
# Events

What happens while a schema is worked on, kept as values in the order of happening. An error does not
undo what happened before it.

* **`Event`**: the things worth telling.
* **`Traced`**: a computation that yields events and a value or an error.
* **`Traced.each`**: one computation for each element of a list, in order, up to the first error.
-/

namespace FlagSchema

/-- Something worth telling. -/
inductive Event where
  /-- A source has been read. -/
  | sourceRead (bytes : Nat)
  /-- An enum became a set of flags. -/
  | flagsStored (enum : String) (count : Nat) (width : Scalar)
  /-- A field changed from the type as written. -/
  | fieldRetyped (message field written : String) (width : Scalar)
  /-- A schema has been lowered. -/
  | lowered (flagSets fields : Nat)
  /-- A set of flags is in the report. -/
  | flagsReported (enum : String) (count : Nat) (width : Scalar)
  /-- A value shares its number with an earlier one. -/
  | aliasSkipped (enum value : String)
  /-- A repeated field got its accessors. -/
  | repeatedField (field : String) (number : Nat)
  /-- A field is a map, for which there are no accessors. -/
  | mapSkipped (message field : String)
  deriving DecidableEq, Repr

/-- Events in order, and a value or an error. -/
structure Traced (ε α : Type) where
  events : List Event
  result : Except ε α

namespace Traced

variable {ε α β : Type}

/-- A value without events. -/
def pure (a : α) : Traced ε α := ⟨[], .ok a⟩

/-- An error without events. -/
def fail (e : ε) : Traced ε α := ⟨[], .error e⟩

/-- One computation after another; the second happens only if the first yields a value. -/
def bind (t : Traced ε α) (f : α → Traced ε β) : Traced ε β :=
  match t.result with
  | .error e => ⟨t.events, .error e⟩
  | .ok a    => ⟨t.events ++ (f a).events, (f a).result⟩

instance : Monad (Traced ε) where
  pure := pure
  bind := bind

/-- An event. -/
def tell (e : Event) : Traced ε Unit := ⟨[e], .ok ()⟩

/-- A value or an error without events. -/
def lift (r : Except ε α) : Traced ε α := ⟨[], r⟩

/-- The same computation with another type of errors. -/
def mapError {ε' : Type} (f : ε → ε') (t : Traced ε α) : Traced ε' α :=
  ⟨t.events, t.result.mapError f⟩

/-- One computation for each element, in order, up to the first error. -/
def each (f : α → Traced ε β) : List α → Traced ε (List β)
  | []      => pure []
  | a :: as => bind (f a) fun b => bind (each f as) fun bs => pure (b :: bs)

@[simp] theorem events_pure (a : α) : (Pure.pure a : Traced ε α).events = [] := rfl

@[simp] theorem result_pure (a : α) : (Pure.pure a : Traced ε α).result = .ok a := rfl

/-- The result of two computations in a row is that of their results. -/
@[simp] theorem result_bind (t : Traced ε α) (f : α → Traced ε β) :
    (t >>= f).result = t.result.bind fun a => (f a).result := by
  show (bind t f).result = _
  unfold bind
  cases t.result <;> rfl

/-- The result for a list is that of the results for its elements. -/
theorem result_each (f : α → Traced ε β) (as : List α) :
    (each f as).result = as.mapM fun a => (f a).result := by
  induction as with
  | nil => rfl
  | cons a as ih =>
    rw [List.mapM_cons, ← ih]
    show (bind (f a) _).result = _
    unfold bind
    cases (f a).result with
    | error e => rfl
    | ok b =>
      show (bind (each f as) _).result = _
      unfold bind
      cases (each f as).result <;> rfl

end Traced

end FlagSchema
