import FlagSchema.Hart.Session
import Mathlib.Data.List.DropRight

/-!
# What calls leave behind

Calls on a configuration and on a hart, interleaved, as an account of the state that they leave. Nothing
is shared: the configuration has its own calls alone, and each field of the hart has the calls that name
it alone. The configuration of the hart comes and goes: it is there if a call named it after the last that
cleared it, and holds what the calls on it since then give by themselves.

* **`Hart.get_run_filter`**, **`Hart.run_eq_run_of_filter`**: a field of a hart after a run depends on the
  calls that name it alone, and calls on different fields change places.
* **`Hart.privileged_run_eq_none_iff`**, **`Hart.getD_privileged_run`**: the configuration of a hart after
  a run.
* **`Privileged.storedModes_run`**: the bits of the modes are stored as they were set last, hidden or not.
* **`Session.run_new`**: all of it for steps on a new configuration and a new hart.
-/

namespace FlagSchema

-- ── Modes, stored and read ───────────────────────────────────────────────────────

/-- The bits of all declared flags. -/
def Flag.union (flags : List Flag) : UInt64 := flags.foldl (fun bits f => bits ||| f.value) 0

namespace Privileged

variable {p : Privileged} {calls : List Call}

/-- Reading the modes keeps the bits that some mode declares. -/
theorem modes_toUInt64 (p : Privileged) :
    p.modes.toUInt64 = p.storedModes.toUInt64 &&& Flag.union modeFlags := by
  have hdeclared : Flag.union modeFlags = declaredModes.toUInt64 := by decide
  rw [hdeclared, modes, UInt32.toUInt64_and]

/-- A configuration is as new if nothing is stored in it; bits that reading hides count. -/
theorem isDefault_iff :
    p.isDefault = true ↔ p.storedModes = 0 ∧ p.mxlen = 0 ∧ p.isa = "" := by
  obtain ⟨storedModes, mxlen, isa⟩ := p
  rw [isDefault, beq_iff_eq, mk.injEq]

example : (run {} [.setModes 8]).modes = 0 ∧ (run {} [.setModes 8]).isDefault = false := by decide

/-- The bits that a call stores as the modes. -/
def Call.modes? : Call → Option UInt32
  | .setModes bits => some bits
  | .clearModes    => some 0
  | _              => none

theorem storedModes_apply (p : Privileged) (call : Call) :
    (p.apply call).storedModes = call.modes?.getD p.storedModes := by
  cases call <;> rfl

/-- The stored bits are those of the last call that stores some. -/
theorem storedModes_run (p : Privileged) (calls : List Call) :
    (p.run calls).storedModes = (calls.filterMap Call.modes?).getLast?.getD p.storedModes := by
  induction calls using List.reverseRecOn with
  | nil => rfl
  | append_singleton calls call ih =>
      have hstep : (p.run (calls ++ [call])).storedModes = call.modes?.getD (p.run calls).storedModes := by
        rw [run_append]
        exact storedModes_apply ..
      rw [hstep, ih, List.filterMap_append]
      cases hcall : call.modes? with
      | none =>
          rw [List.filterMap_cons_none hcall, List.filterMap_nil, List.append_nil]
          rfl
      | some bits =>
          rw [List.filterMap_cons_some hcall, List.filterMap_nil, List.getLast?_concat]
          rfl

end Privileged

-- ── The fields of a hart ─────────────────────────────────────────────────────────

namespace Hart

/-- A field of a hart. -/
inductive FieldName where
  | hartId | xlen | privileged | delegated | extensions
  deriving DecidableEq, Repr

/-- The values of a field. -/
def FieldName.Value : FieldName → Type
  | .hartId     => UInt64
  | .xlen       => Xlen
  | .privileged => Option Privileged
  | .delegated  => List UInt32
  | .extensions => List String

/-- The value of a field. -/
def get (h : Hart) : (field : FieldName) → field.Value
  | .hartId     => h.hartId
  | .xlen       => h.xlen
  | .privileged => h.privileged
  | .delegated  => h.delegated
  | .extensions => h.extensions

/-- The field that a call names. -/
def Call.field : Call → FieldName
  | .setHartId _ | .clearHartId                                => .hartId
  | .setXlen _ | .clearXlen                                    => .xlen
  | .setPrivileged _ | .clearPrivileged | .editPrivileged _    => .privileged
  | .addDelegated _ | .editDelegated _ | .clearDelegated       => .delegated
  | .addExtension _ | .editExtensions _ | .clearExtensions     => .extensions

variable {h h' : Hart} {field : FieldName} {call : Call} {calls : List Call}

/-- A hart is as new if nothing is stored in it and no configuration is there, not even a new one. -/
theorem isDefault_iff :
    h.isDefault = true ↔
      h.hartId = 0 ∧ h.xlen = .unspecified ∧ h.privileged = none ∧ h.delegated = [] ∧
        h.extensions = [] := by
  obtain ⟨hartId, xlen, privileged, delegated, extensions⟩ := h
  rw [isDefault, beq_iff_eq, mk.injEq]

example : (run {} [.editPrivileged []]).isDefault = false := by decide

/-- A hart is its fields. -/
theorem eq_of_get (hget : ∀ field, h.get field = h'.get field) : h = h' := by
  obtain ⟨hartId, xlen, privileged, delegated, extensions⟩ := h
  rw [mk.injEq]
  exact ⟨hget .hartId, hget .xlen, hget .privileged, hget .delegated, hget .extensions⟩

/-- A call leaves the fields alone that it does not name. -/
theorem get_apply_of_ne (hne : call.field ≠ field) : (h.apply call).get field = h.get field := by
  cases call <;> cases field <;> first | rfl | exact (hne rfl).elim

/-- What a call makes of a field depends on that field alone. -/
theorem get_apply_congr (hget : h.get field = h'.get field) :
    (h.apply call).get field = (h'.apply call).get field := by
  by_cases hne : call.field = field
  · subst hne
    cases call with
    | editPrivileged calls =>
        have hprivileged : h.privileged = h'.privileged := hget
        show some ((h.privileged.getD {}).run calls) = some ((h'.privileged.getD {}).run calls)
        rw [hprivileged]
    | addDelegated bits => exact congrArg (· ++ [bits]) (show h.delegated = h'.delegated from hget)
    | editDelegated edit => exact congrArg edit (show h.delegated = h'.delegated from hget)
    | addExtension name => exact congrArg (· ++ [name]) (show h.extensions = h'.extensions from hget)
    | editExtensions edit => exact congrArg edit (show h.extensions = h'.extensions from hget)
    | _ => rfl
  · rw [get_apply_of_ne hne, get_apply_of_ne hne, hget]

/-- **A field after a run depends on its value before and on the calls that name it.** -/
theorem get_run_filter (hget : h.get field = h'.get field) :
    (h.run calls).get field = (h'.run (calls.filter (·.field == field))).get field := by
  -- the two runs take different steps, so what carries the induction is that they agree on the field
  induction calls generalizing h h' with
  | nil => exact hget
  | cons call calls ih =>
      rw [List.filter_cons]
      by_cases hcall : call.field = field
      · rw [if_pos (beq_iff_eq.mpr hcall)]
        exact ih (get_apply_congr hget)
      · rw [if_neg (fun heq => hcall (beq_iff_eq.mp heq))]
        exact ih ((get_apply_of_ne hcall).trans hget)

/-- Calls on different fields change places: runs with the same calls on each field end the same. -/
theorem run_eq_run_of_filter {calls' : List Call}
    (hcalls : ∀ field : FieldName, calls.filter (·.field == field) = calls'.filter (·.field == field)) :
    h.run calls = h.run calls' := by
  refine eq_of_get fun field => ?_
  calc (h.run calls).get field
      = (h.run (calls.filter (·.field == field))).get field := get_run_filter rfl
    _ = (h.run (calls'.filter (·.field == field))).get field := by rw [hcalls field]
    _ = (h.run calls').get field := (get_run_filter rfl).symm

-- ── The configuration of a hart ──────────────────────────────────────────────────

/-- Whether a call removes the configuration. -/
def Call.clearsPrivileged : Call → Bool
  | .clearPrivileged => true
  | _                => false

/-- The configuration that a call sets. -/
def Call.privilegedSet? : Call → Option Privileged
  | .setPrivileged p => some p
  | _                => none

/-- The calls that a call makes on the configuration in place. -/
def Call.privilegedCalls : Call → List Privileged.Call
  | .editPrivileged calls => calls
  | _                     => []

/-- The calls since the last that removes the configuration; all of them if none does. -/
def sinceCleared (calls : List Call) : List Call := calls.rtakeWhile fun call => !call.clearsPrivileged

/-- The calls since the last that sets the configuration; all of them if none does. -/
def sinceSet (calls : List Call) : List Call := calls.rtakeWhile fun call => call.privilegedSet?.isNone

/-- The configuration that is set last. -/
def lastSet? (calls : List Call) : Option Privileged := (calls.filterMap Call.privilegedSet?).getLast?

/-- The configuration that calls give which do not remove it: the calls on it in place since it was set
    last, on what was set then or on a new one. -/
def configured (calls : List Call) : Privileged :=
  ((lastSet? calls).getD {}).run ((sinceSet calls).flatMap Call.privilegedCalls)

theorem sinceCleared_concat (calls : List Call) (call : Call) :
    sinceCleared (calls ++ [call]) =
      if call.clearsPrivileged then [] else sinceCleared calls ++ [call] := by
  rw [sinceCleared, sinceCleared]
  by_cases hcall : call.clearsPrivileged = true
  · rw [if_pos hcall, List.rtakeWhile_concat_neg _ _ _ (by simp [hcall])]
  · rw [if_neg hcall, List.rtakeWhile_concat_pos _ _ _ (by simp [hcall])]

/-- A call removes the configuration, or it sets one, or makes calls in place, or leaves it alone. -/
theorem getD_privileged_apply (h : Hart) (call : Call) :
    (h.apply call).privileged.getD {} =
      if call.clearsPrivileged then {}
      else (call.privilegedSet?.getD (h.privileged.getD {})).run call.privilegedCalls := by
  cases call <;> rfl

/-- A further call in place is a further call on the configuration; one that sets it starts over. -/
theorem configured_concat (calls : List Call) (call : Call) :
    configured (calls ++ [call]) =
      (call.privilegedSet?.getD (configured calls)).run call.privilegedCalls := by
  rw [configured, configured, lastSet?, lastSet?, sinceSet, sinceSet, List.filterMap_append]
  cases hcall : call.privilegedSet? with
  | none =>
      rw [List.filterMap_cons_none hcall, List.filterMap_nil, List.append_nil,
        List.rtakeWhile_concat_pos _ _ _ (by rw [hcall]; rfl), List.flatMap_append,
        List.flatMap_singleton, Privileged.run_append]
      rfl
  | some p =>
      have hcalls : call.privilegedCalls = [] := by
        cases call <;> first | rfl | cases hcall
      rw [List.filterMap_cons_some hcall, List.filterMap_nil, List.getLast?_concat,
        List.rtakeWhile_concat_neg _ _ _ (by rw [hcall]; exact Bool.false_ne_true), hcalls]
      rfl

/-- **A new hart has no configuration after a run exactly if no call since the last that removes it names
    it.** -/
theorem privileged_run_eq_none_iff (calls : List Call) :
    (run {} calls).privileged = none ↔ ∀ call ∈ sinceCleared calls, call.field ≠ .privileged := by
  induction calls using List.reverseRecOn with
  | nil => exact ⟨fun _ => nofun, fun _ => rfl⟩
  | append_singleton calls call ih =>
      have hstep : run {} (calls ++ [call]) = (run {} calls).apply call := run_append ..
      rw [hstep, sinceCleared_concat]
      cases call with
      | clearPrivileged => exact ⟨fun _ => nofun, fun _ => rfl⟩
      | setPrivileged p =>
          exact ⟨nofun, fun hcalls => absurd rfl (hcalls _ List.mem_concat_self)⟩
      | editPrivileged inner =>
          exact ⟨nofun, fun hcalls => absurd rfl (hcalls _ List.mem_concat_self)⟩
      | _ =>
          refine ih.trans ?_
          simp only [Call.clearsPrivileged, Bool.false_eq_true, if_false, List.forall_mem_append,
            List.forall_mem_singleton]
          exact ⟨fun hcalls => ⟨hcalls, nofun⟩, And.left⟩

/-- **The configuration of a new hart after a run is what the calls on it give by themselves.** -/
theorem getD_privileged_run (calls : List Call) :
    (run {} calls).privileged.getD {} = configured (sinceCleared calls) := by
  induction calls using List.reverseRecOn with
  | nil => rfl
  | append_singleton calls call ih =>
      have hstep : run {} (calls ++ [call]) = (run {} calls).apply call := run_append ..
      rw [hstep, getD_privileged_apply, sinceCleared_concat, ih]
      by_cases hcall : call.clearsPrivileged = true
      · rw [if_pos hcall, if_pos hcall]
        rfl
      · rw [if_neg hcall, if_neg hcall, configured_concat]

end Hart

-- ── Interleaved calls ────────────────────────────────────────────────────────────

namespace Session

variable {s : Session}

/-- The call that a step makes on the configuration. -/
def Step.privilegedCall? : Step → Option Privileged.Call
  | .onPrivileged call => some call
  | _                  => none

/-- The calls that a step makes on the hart while the configuration is `p`. -/
def Step.hartCalls (p : Privileged) : Step → List Hart.Call
  | .onPrivileged _  => []
  | .onHart call     => [call]
  | .copyPrivileged  => [.setPrivileged p]
  | .setXlenNumber n => (Xlen.ofNumber? n).toList.map .setXlen

/-- The calls that steps make on the hart while the configuration is `p` at first. -/
def hartCalls (p : Privileged) : List Step → List Hart.Call
  | []            => []
  | step :: steps => step.hartCalls p ++ hartCalls (p.run step.privilegedCall?.toList) steps

theorem apply_privileged (s : Session) (step : Step) :
    (s.apply step).privileged = s.privileged.run step.privilegedCall?.toList := by
  cases step with
  | setXlenNumber n =>
      rw [apply]
      cases Xlen.ofNumber? n <;> rfl
  | _ => rfl

theorem apply_hart (s : Session) (step : Step) :
    (s.apply step).hart = s.hart.run (step.hartCalls s.privileged) := by
  cases step with
  | setXlenNumber n =>
      rw [apply, Step.hartCalls]
      cases Xlen.ofNumber? n <;> rfl
  | _ => rfl

/-- **The configuration of a session has its own calls alone.** -/
theorem run_privileged (s : Session) (steps : List Step) :
    (s.run steps).privileged = s.privileged.run (steps.filterMap Step.privilegedCall?) := by
  induction steps generalizing s with
  | nil => rfl
  | cons step steps ih =>
      have hcalls : (step :: steps).filterMap Step.privilegedCall? =
          step.privilegedCall?.toList ++ steps.filterMap Step.privilegedCall? := by
        rw [List.filterMap_cons]
        cases step.privilegedCall? <;> rfl
      rw [hcalls, Privileged.run_append, ← apply_privileged]
      exact ih (s.apply step)

/-- **The hart of a session has the calls that the steps make on it.** -/
theorem run_hart (s : Session) (steps : List Step) :
    (s.run steps).hart = s.hart.run (hartCalls s.privileged steps) := by
  induction steps generalizing s with
  | nil => rfl
  | cons step steps ih =>
      rw [hartCalls, Hart.run_append, ← apply_hart, ← apply_privileged]
      exact ih (s.apply step)

/-- **A new configuration and a new hart after any calls on either.** The configuration has its own calls
    alone, and each field of the hart has the calls that name it. The hart has a configuration if a call
    named it after the last that removed it, and then the one that the calls on it since give by
    themselves. Reading hides the bits of no mode, which are stored as they were set; being as new counts
    them, and counts a configuration of the hart even if it is new. -/
theorem run_new (steps : List Step) :
    let s := run {} steps
    let ownCalls := steps.filterMap Step.privilegedCall?
    let calls := hartCalls {} steps
    let since := Hart.sinceCleared calls
    s.privileged = Privileged.run {} ownCalls ∧
      s.hart = Hart.run {} calls ∧
      (∀ field, s.hart.get field = (Hart.run {} (calls.filter (·.field == field))).get field) ∧
      (s.hart.privileged = none ↔ ∀ call ∈ since, call.field ≠ .privileged) ∧
      (∀ p, s.hart.privileged = some p → p = Hart.configured since) ∧
      (∀ p, s.privileged = p ∨ s.hart.privileged = some p →
        p.modes.toUInt64 = p.storedModes.toUInt64 &&& Flag.union modeFlags ∧
          (p.isDefault = true ↔ p.storedModes = 0 ∧ p.mxlen = 0 ∧ p.isa = "")) ∧
      (∀ p calls, (Privileged.run p calls).storedModes =
        (calls.filterMap Privileged.Call.modes?).getLast?.getD p.storedModes) ∧
      (s.hart.isDefault = true ↔ s.hart.hartId = 0 ∧ s.hart.xlen = .unspecified ∧
        s.hart.privileged = none ∧ s.hart.delegated = [] ∧ s.hart.extensions = []) := by
  intro s ownCalls calls since
  have hhart : s.hart = Hart.run {} calls := run_hart {} steps
  refine ⟨run_privileged {} steps, hhart, ?_, ?_, ?_, ?_, Privileged.storedModes_run, Hart.isDefault_iff⟩
  · intro field
    rw [hhart]
    exact Hart.get_run_filter rfl
  · rw [hhart]
    exact Hart.privileged_run_eq_none_iff calls
  · intro p hp
    have hconfigured : (Hart.run {} calls).privileged.getD {} = Hart.configured since :=
      Hart.getD_privileged_run calls
    rw [← hhart, hp] at hconfigured
    exact hconfigured
  · intro p _
    exact ⟨p.modes_toUInt64, Privileged.isDefault_iff⟩

end Session

end FlagSchema
