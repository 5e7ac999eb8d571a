import FlagSchema.Hart.Basic

/-!
# Sessions

A privilege configuration and a hart, both new at first, and calls on either of them in any order. The
hart can be given a copy of the configuration; from then on the two change apart.

* **`Session.apply`**: one step.
* **`Session.states`**: the state after each of several steps.
* **`Privileged.notice`**: what the sample program tells about a configuration.
-/

namespace FlagSchema

/-- A privilege configuration and a hart. -/
structure Session where
  privileged : Privileged := {}
  hart       : Hart := {}
  deriving DecidableEq, Repr, Inhabited

namespace Session

/-- A step. -/
inductive Step where
  | onPrivileged (call : Privileged.Call)
  | onHart (call : Hart.Call)
  /-- Gives the hart a copy of the configuration. -/
  | copyPrivileged
  /-- Sets the register width by its number; nothing happens if no width has the number. -/
  | setXlenNumber (n : Int)
  deriving Inhabited

/-- The effect of a step. -/
def apply (s : Session) : Step → Session
  | .onPrivileged call => { s with privileged := s.privileged.apply call }
  | .onHart call       => { s with hart := s.hart.apply call }
  | .copyPrivileged    => { s with hart := s.hart.apply (.setPrivileged s.privileged) }
  | .setXlenNumber n   =>
    match Xlen.ofNumber? n with
    | some x => { s with hart := s.hart.apply (.setXlen x) }
    | none   => s

/-- The effect of steps in a row. -/
def run (s : Session) (steps : List Step) : Session := steps.foldl apply s

/-- The state after each step. -/
def states (s : Session) : List Step → List Session
  | []            => []
  | step :: steps => s.apply step :: states (s.apply step) steps

/-- The last of the states is that after the whole run. -/
theorem getLastD_states (s : Session) (steps : List Step) :
    (s.states steps).getLastD s = s.run steps := by
  induction steps generalizing s with
  | nil => rfl
  | cons step steps ih =>
    rw [states, List.getLastD_cons, ih]
    rfl

end Session

-- ── The sample program ───────────────────────────────────────────────────────────

namespace Privileged

/-- The configuration of the sample program: machine and supervisor mode. -/
def sample : Privileged := run {} [.setModes (1 ||| 2)]

/-- What the sample program tells about a configuration: a line if it has machine mode. -/
def notice (p : Privileged) : String :=
  if p.modes &&& 1 = 0 then "" else "M bit present\n"

end Privileged

end FlagSchema
