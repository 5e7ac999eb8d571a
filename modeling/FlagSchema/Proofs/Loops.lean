import FlagSchema.Proofs.Composition

/-!
# Loops of readers

A reader that repeats a step comes to an end. A run of the step that goes on has taken a token, so that there are no
more runs than tokens; the last one gives a result or fails. The statements of a schema and the elements of messages,
which may hold messages again, are read in steps in a row as well.

* **`Reader.Rounds`**: runs of a step that go on, in a row; **`Reader.exists_rounds`**: they come to an end.
* **`Reader.LoopsWithin`**: a step can be repeated within tokens.
* **`Reader.Loop`**: the steps that readers repeat; **`Reader.Loop.loopsWithin`**: they can be.
* **`Schema.Progress.exists_advances_at`**: so can the steps in which a schema is read.
-/

namespace FlagSchema

open Token Reader

variable {source : List Char}

-- ── Runs of a step ───────────────────────────────────────────────────────────────

namespace Reader

variable {α σ : Type} {step : σ → Reader (σ ⊕ α)} {ts : List Token} {s s' : Stream} {b b' : σ} {k : Nat}

/-- Runs of a step in a row, each of which asks to go on. -/
inductive Rounds (step : σ → Reader (σ ⊕ α)) : Nat → σ → Stream → σ → Stream → Prop where
  | done (b : σ) (s : Stream) : Rounds step 0 b s b s
  | more {n : Nat} {b b₁ b' : σ} {s s₁ s' : Stream} (h : step b s = .ok (.inl b₁, s₁))
      (hrest : Rounds step n b₁ s₁ b' s') : Rounds step (n + 1) b s b' s'

/-- A run that goes on has moved the index forwards. -/
theorem Proceeds.lt_of_inl (hstep : Proceeds step) (hkeeps : ∀ b, Keeps (step b)) (hs : s.At ts k)
    (h : step b s = .ok (.inl b', s')) : ∃ k', k < k' ∧ s'.At ts k' := by
  obtain ⟨k', hsize, -, hat⟩ := hs.of_suffix (hkeeps b h)
  have hlt := hstep h
  exact ⟨k', by omega, hat⟩

/-- **The runs of a step come to an end**: at one that gives a result, or at one that fails. -/
theorem exists_rounds (hstep : Proceeds step) (hkeeps : ∀ b, Keeps (step b)) (hs : s.At ts k) (b : σ) :
    ∃ n b' s' k', Rounds step n b s b' s' ∧ k + n ≤ k' ∧ s'.At ts k' ∧
      ((∃ a s₁, step b' s' = .ok (.inr a, s₁) ∧ iterate step hstep b s = .ok (a, s₁)) ∨
        ∃ e, step b' s' = .error e ∧ iterate step hstep b s = .error e) := by
  fun_induction iterate step hstep b s generalizing k with
  | case1 b s e h => exact ⟨0, b, s, k, .done b s, Nat.le_refl _, hs, .inr ⟨e, h, rfl⟩⟩
  | case2 b s a s₁ h => exact ⟨0, b, s, k, .done b s, Nat.le_refl _, hs, .inl ⟨a, s₁, h, rfl⟩⟩
  | case3 b s b₁ s₁ h _ ih =>
      obtain ⟨k₁, hlt, hs₁⟩ := hstep.lt_of_inl hkeeps hs h
      obtain ⟨n, b', s', k', hrounds, hle, hs', hend⟩ := ih hs₁
      exact ⟨n + 1, b', s', k', .more h hrounds, by omega, hs', hend⟩

/-- A step can be repeated within tokens, from every index on: each run that goes on moves the index forwards, and
    after no more runs than there are tokens one gives the result of the repetition or fails with its error. -/
structure LoopsWithin (ts : List Token) (step : σ → Reader (σ ⊕ α)) (hstep : Proceeds step) : Prop where
  goes : ∀ b s k, s.At ts k → ∀ b' s', step b s = .ok (.inl b', s') → ∃ k', k < k' ∧ s'.At ts k'
  ends : ∀ b s k, s.At ts k → ∃ n b' s' k', Rounds step n b s b' s' ∧ k + n ≤ k' ∧ s'.At ts k' ∧
    ((∃ a s₁, step b' s' = .ok (.inr a, s₁) ∧ iterate step hstep b s = .ok (a, s₁)) ∨
      ∃ e, step b' s' = .error e ∧ iterate step hstep b s = .error e)

/-- The steps that readers repeat: they pass over tokens up to a symbol or to the brace that closes a block, and they
    read the literals of a string, the parts of the name of an option, the options in brackets, and the statements of
    an enum, of a choice and of a schema. -/
inductive Loop (source : List Char) : {σ α : Type} → (σ → Reader (σ ⊕ α)) → Prop where
  | skipPast (c : Char) : Loop source (skipStep c)
  | skipBraces : Loop source braceStep
  | string : Loop source stringStep
  | optionName : Loop source subfieldStep
  | options : Loop source (Setting.entryStep source)
  | enum : Loop source (EnumDef.bodyStep source)
  | choice (name : String) : Loop source (Message.oneofStep source name)
  | schema : Loop source (Schema.step source)

theorem Loop.built (h : Loop source step) (b : σ) : Built (step b) := by
  cases h with
  | skipPast c => exact built_skipStep c b
  | skipBraces => exact built_braceStep b
  | string => exact built_stringStep b
  | optionName => exact built_subfieldStep b
  | options => exact Setting.built_entryStep source b
  | enum => exact EnumDef.built_bodyStep source b
  | choice name => exact Message.built_oneofStep source name b
  | schema => exact Schema.built_step source b

theorem Loop.proceeds (h : Loop source step) : Proceeds step := by
  cases h with
  | skipPast c => exact .of_takes (takes_skipStep c)
  | skipBraces => exact .of_takes takes_braceStep
  | string => exact proceeds_stringStep
  | optionName => exact proceeds_subfieldStep
  | options => exact .of_takes (Setting.takes_entryStep source)
  | enum => exact .of_takes (EnumDef.takes_bodyStep source)
  | choice name => exact .of_takes (Message.takes_oneofStep source name)
  | schema => exact Schema.proceeds_step source

/-- **The steps that readers repeat can be repeated within tokens.** -/
theorem Loop.loopsWithin (h : Loop source step) (ts : List Token) : LoopsWithin ts step h.proceeds where
  goes := fun _ _ _ hs _ _ hrun => h.proceeds.lt_of_inl (fun b => (h.built b).keeps) hs hrun
  ends := fun b _ _ hs => exists_rounds h.proceeds (fun b => (h.built b).keeps) hs b

end Reader

-- ── Statements and elements ──────────────────────────────────────────────────────

namespace Schema.Progress

variable {ts : List Token} {s : Stream} {k : Nat}

theorem built_advanceStatement (source : List Char) (g : Schema) : Built (advanceStatement source g) := by
  refine .bind .peek? fun kind => ?_
  split
  · exact .bind (.next _) fun _ => .bind Message.built_readHead fun _ => .pure _
  · exact .bind (built_readItem source) fun _ => .pure _

theorem built_advance (source : List Char) (a : Progress) : Built (advance source a) := by
  unfold advance
  split
  · exact .bind .dropHeld fun _ => built_advanceStatement source _
  · exact .bind (Message.built_readElement source) fun _ => .pure _

theorem built_advances (source : List Char) (n : Nat) (a : Progress) : Built (advances source n a) := by
  induction n generalizing a with
  | zero => exact .pure a
  | succ n ih => exact .bind (built_advance source a) ih

/-- **Reading comes to an end within the tokens**, after steps in a row that each take one: where none is left and no
    message is open, or where a step fails. -/
theorem exists_advances_at (source : List Char) (a : Progress) (hs : s.At ts k) :
    ∃ n b s' k', advances source n a s = .ok (b, s') ∧ k + n ≤ k' ∧ s'.At ts k' ∧
      ((b.opened = [] ∧ s'.tokens = [] ∧ ∃ s₁, finish source a s = .ok (b.schema, s₁)) ∨
        ∃ e, advance source b s' = .error e ∧ finish source a s = .error e) := by
  obtain ⟨n, b, s', hrun, hend⟩ := exists_advances source a s
  obtain ⟨k', hle, hs'⟩ := (built_advances source n a).keeps.at_of_takes (takes_advances source n a) hs hrun
  exact ⟨n, b, s', k', hrun, hle, hs', hend⟩

end Schema.Progress

end FlagSchema
