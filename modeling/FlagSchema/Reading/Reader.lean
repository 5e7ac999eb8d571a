import FlagSchema.Error
import FlagSchema.Reading.Stream

/-!
# Readers

A reader takes tokens from the front of a stream and gives a value or an error. The readers here look at
one token; statements are built from them.

* **`Reader.require`**, **`Reader.accept`**: take the next token if it has a certain form, or else fail
  or leave it; what that says of the stream is `require_eq_ok_iff`, `accept_eq_some_iff` and
  `accept_eq_none_iff`.
* **`Reader.Takes`**: a reader takes at least so many tokens whenever it succeeds; the numbers of two
  readers in a row add up (`Takes.bind`).
* **`Reader.iterate`**: repeats a step for as long as it asks to go on, which it may only do after
  taking a token.
-/

namespace FlagSchema

/-- A reader of a stream. -/
abbrev Reader (α : Type) := StateT Stream (Except SchemaError) α

namespace Reader

variable {α β σ : Type}

/-- A reader that fails. -/
def fail (e : SchemaError) : Reader α := fun _ => .error e

/-- The next token, which must have a certain form. -/
def require (what : Expectation) (form : Token.Kind → Option α) : Reader (α × Token) := fun s =>
  match s.items with
  | [] => .error (.endOfInput what)
  | i :: rest =>
    match form i.token.kind with
    | none   => .error (.expected i.token.position what i.token.kind)
    | some a => .ok ((a, i.token), s.skipItem i rest)

/-- The next token, if there is one and it has a certain form. -/
def accept (form : Token.Kind → Option α) : Reader (Option (α × Token)) := fun s =>
  match s.items with
  | [] => .ok (none, s)
  | i :: rest =>
    match form i.token.kind with
    | none   => .ok (none, s)
    | some a => .ok (some (a, i.token), s.skipItem i rest)

/-- The next token, whatever it is. -/
def next (what : Expectation) : Reader Token := do
  let (_, t) ← require what some
  pure t

/-- An error about the next token, or about the end of the input. -/
def refuse (what : Expectation) : Reader α := fun s =>
  match s.items with
  | []     => .error (.endOfInput what)
  | i :: _ => .error (.expected i.token.position what i.token.kind)

/-- The name that a token is. -/
def nameForm : Token.Kind → Option String
  | .ident name => some name
  | _           => none

/-- The value of the string that a token is. -/
def stringForm : Token.Kind → Option String
  | .str value => some value
  | _          => none

/-- The form of one symbol. -/
def symbolForm (c : Char) (k : Token.Kind) : Option Unit :=
  if k = .symbol c then some () else none

/-- A symbol, which must come next. -/
def symbol (c : Char) : Reader Token := do
  let (_, t) ← require (.symbol c) (symbolForm c)
  pure t

/-- A symbol, if it comes next. -/
def acceptSymbol (c : Char) : Reader Bool := do
  let found ← accept (symbolForm c)
  pure found.isSome

/-- A name, which must come next. -/
def name (what : Expectation) : Reader (String × Token) :=
  require what nameForm

/-- The significant token `n` places ahead is a symbol. -/
def symbolAhead (n : Nat) (c : Char) : Reader Bool := fun s =>
  .ok (s.symbolAt n c, s)

/-- The kind of the next token. -/
def peek? : Reader (Option Token.Kind) := fun s =>
  .ok (s.kindAt? 0, s)

/-- Whether no significant token is left. -/
def atEnd : Reader Bool := fun s =>
  .ok (s.items.isEmpty, s)

/-- Forgets the comments passed so far. -/
def dropHeld : Reader Unit := fun s =>
  .ok ((), { s with held := [] })

/-- Collects the comments passed so far. -/
def takeHeld : Reader (List String) := fun s =>
  .ok (s.held, { s with held := [] })

/-- Collects the comment right behind the last token taken, if it starts on a certain line. -/
def trailing (line : Nat) : Reader (Option String) := fun s =>
  match s.trailing? line with
  | some (c, s') => .ok (some c, s')
  | none         => .ok (none, s)

/-- What two readers in a row do when they succeed. -/
theorem exists_of_bind {r : Reader α} {f : α → Reader β} {s s' : Stream} {b : β}
    (h : (r >>= f) s = .ok (b, s')) : ∃ a s₁, r s = .ok (a, s₁) ∧ f a s₁ = .ok (b, s') := by
  cases hr : r s with
  | error e =>
    have : (r >>= f) s = .error e := by
      show (r s >>= fun p => f p.1 p.2) = _
      rw [hr]
      rfl
    rw [this] at h
    cases h
  | ok p =>
    refine ⟨p.1, p.2, rfl, ?_⟩
    have : (r >>= f) s = f p.1 p.2 := by
      show (r s >>= fun p => f p.1 p.2) = _
      rw [hr]
      rfl
    rw [← this, h]

-- ── The next token ───────────────────────────────────────────────────────────────

/-- What is required is the token of the next item, if it has the form. -/
theorem require_eq_ok_iff {what : Expectation} {form : Token.Kind → Option α} {s s' : Stream} {x : α × Token} :
    require what form s = .ok (x, s') ↔
      ∃ i rest a, s.items = i :: rest ∧ form i.token.kind = some a ∧ x = (a, i.token) ∧ s' = s.skipItem i rest := by
  constructor
  · intro h
    unfold require at h
    split at h
    · cases h
    · next i rest hitems =>
      split at h
      · cases h
      · next a hform =>
        cases h
        exact ⟨i, rest, a, hitems, hform, rfl, rfl⟩
  · rintro ⟨i, rest, a, hitems, hform, rfl, rfl⟩
    simp only [require, hitems, hform]

/-- What is accepted is the token of the next item, if it has the form. -/
theorem accept_eq_some_iff {form : Token.Kind → Option α} {s s' : Stream} {x : α × Token} :
    accept form s = .ok (some x, s') ↔
      ∃ i rest a, s.items = i :: rest ∧ form i.token.kind = some a ∧ x = (a, i.token) ∧ s' = s.skipItem i rest := by
  constructor
  · intro h
    unfold accept at h
    split at h
    · cases h
    · next i rest hitems =>
      split at h
      · cases h
      · next a hform =>
        cases h
        exact ⟨i, rest, a, hitems, hform, rfl, rfl⟩
  · rintro ⟨i, rest, a, hitems, hform, rfl, rfl⟩
    simp only [accept, hitems, hform]

/-- Nothing is accepted, and the stream is left alone, where no token of the form comes next. -/
theorem accept_eq_none_iff {form : Token.Kind → Option α} {s s' : Stream} :
    accept form s = .ok (none, s') ↔ (s.kindAt? 0).bind form = none ∧ s' = s := by
  rw [Stream.kindAt?]
  constructor
  · intro h
    unfold accept at h
    split at h
    · next hitems =>
      cases h
      rw [hitems]
      exact ⟨rfl, rfl⟩
    · next hitems =>
      split at h
      · next hform =>
        cases h
        rw [hitems]
        exact ⟨hform, rfl⟩
      · cases h
  · rintro ⟨hform, rfl⟩
    cases hitems : s'.items with
    | nil => simp only [accept, hitems]
    | cons i rest =>
      rw [hitems] at hform
      simp only [accept, hitems, show form i.token.kind = none from hform]

/-- A comment is collected if it is behind the last token, and the stream is left without it. -/
theorem trailing_eq_some_iff {line : Nat} {s s' : Stream} {text : String} :
    trailing line s = .ok (some text, s') ↔ ∃ c : Comment, s = s'.pushComment c ∧ c.line = line ∧ c.text = text := by
  rw [← Stream.trailing?_eq_some_iff, trailing]
  cases s.trailing? line with
  | none => exact ⟨nofun, nofun⟩
  | some x => exact ⟨fun h => by cases h; rfl, fun h => by cases h; rfl⟩

/-- Where no comment is collected, the stream is left alone. -/
theorem eq_of_trailing_none {line : Nat} {s s' : Stream} (h : trailing line s = .ok (none, s')) : s' = s := by
  unfold trailing at h
  cases htrailing : s.trailing? line with
  | none => rw [htrailing] at h; cases h; rfl
  | some x => rw [htrailing] at h; cases h

theorem refuse_ne_ok (what : Expectation) (s : Stream) (x : α × Stream) : refuse what s ≠ .ok x := by
  intro h
  unfold refuse at h
  split at h <;> cases h

-- ── How much a reader takes ──────────────────────────────────────────────────────

/-- A reader takes at least `n` tokens whenever it succeeds. -/
def Takes (n : Nat) (r : Reader α) : Prop :=
  ∀ ⦃s a s'⦄, r s = .ok (a, s') → s'.size + n ≤ s.size

namespace Takes

theorem mono {m n : Nat} {r : Reader α} (h : Takes n r) (hmn : m ≤ n) : Takes m r := by
  intro s a s' hr
  have := h hr
  omega

theorem pure (a : α) : Takes 0 (Pure.pure a : Reader α) := by
  intro s b s' h
  cases h
  exact Nat.le_refl _

theorem bind {m n : Nat} {r : Reader α} {f : α → Reader β} (hr : Takes m r)
    (hf : ∀ a, Takes n (f a)) : Takes (m + n) (r >>= f) := by
  intro s b s' h
  obtain ⟨a, s₁, h1, h2⟩ := exists_of_bind h
  have h1 := hr h1
  have h2 := hf a h2
  omega

/-- The second of two readers takes everything that is asked for. -/
theorem bind_right {n : Nat} {r : Reader α} {f : α → Reader β} (hr : Takes 0 r)
    (hf : ∀ a, Takes n (f a)) : Takes n (r >>= f) := by
  simpa using bind hr hf

/-- The first of two readers takes everything that is asked for. -/
theorem bind_left {n : Nat} {r : Reader α} {f : α → Reader β} (hr : Takes n r)
    (hf : ∀ a, Takes 0 (f a)) : Takes n (r >>= f) := by
  simpa using bind hr hf

theorem fail (n : Nat) (e : SchemaError) : Takes n (Reader.fail e : Reader α) := by
  intro s a s' h
  cases h

theorem refuse (n : Nat) (what : Expectation) : Takes n (Reader.refuse what : Reader α) := by
  intro s a s' h
  exact absurd h (refuse_ne_ok what s _)

theorem require (what : Expectation) (form : Token.Kind → Option α) :
    Takes 1 (Reader.require what form) := by
  intro s x s' h
  obtain ⟨i, rest, a, hitems, -, -, rfl⟩ := require_eq_ok_iff.mp h
  simp [Stream.size, Stream.skipItem, hitems]

/-- A token that is accepted is taken. -/
theorem of_accept {form : Token.Kind → Option α} {s s' : Stream} {x : α × Token}
    (h : Reader.accept form s = .ok (some x, s')) : s'.size < s.size := by
  obtain ⟨i, rest, a, hitems, -, -, rfl⟩ := accept_eq_some_iff.mp h
  simp [Stream.size, Stream.skipItem, hitems]

theorem accept (form : Token.Kind → Option α) : Takes 0 (Reader.accept form) := by
  intro s a s' h
  cases a with
  | some x => have := of_accept h; omega
  | none =>
    rw [(accept_eq_none_iff.mp h).2]
    exact Nat.le_refl _

theorem next (what : Expectation) : Takes 1 (Reader.next what) :=
  bind_left (require _ _) fun _ => pure _

theorem symbol (c : Char) : Takes 1 (Reader.symbol c) :=
  bind_left (require _ _) fun _ => pure _

theorem acceptSymbol (c : Char) : Takes 0 (Reader.acceptSymbol c) :=
  bind_right (accept _) fun _ => pure _

theorem name (what : Expectation) : Takes 1 (Reader.name what) :=
  require _ _

theorem symbolAhead (n : Nat) (c : Char) : Takes 0 (Reader.symbolAhead n c) := by
  intro s a s' h
  cases h
  exact Nat.le_refl _

theorem peek? : Takes 0 Reader.peek? := by
  intro s a s' h
  cases h
  exact Nat.le_refl _

theorem dropHeld : Takes 0 Reader.dropHeld := by
  intro s a s' h
  cases h
  exact Nat.le_refl _

theorem takeHeld : Takes 0 Reader.takeHeld := by
  intro s a s' h
  cases h
  exact Nat.le_refl _

theorem trailing (line : Nat) : Takes 0 (Reader.trailing line) := by
  intro s found s' h
  cases found with
  | none =>
    rw [eq_of_trailing_none h]
    exact Nat.le_refl _
  | some text =>
    obtain ⟨c, rfl, -, -⟩ := trailing_eq_some_iff.mp h
    exact Nat.le_of_eq (Stream.size_pushComment c s').symm

end Takes

-- ── Repetition ───────────────────────────────────────────────────────────────────

/-- A step takes a token whenever it asks to go on. -/
def Proceeds (step : σ → Reader (σ ⊕ α)) : Prop :=
  ∀ ⦃b s b' s'⦄, step b s = .ok (.inl b', s') → s'.size < s.size

theorem Proceeds.of_takes {step : σ → Reader (σ ⊕ α)} (h : ∀ b, Takes 1 (step b)) :
    Proceeds step :=
  fun _ _ _ _ hs => h _ hs

/-- Repeats a step for as long as it asks to go on. -/
def iterate (step : σ → Reader (σ ⊕ α)) (hstep : Proceeds step) (b : σ) (s : Stream) :
    Except SchemaError (α × Stream) :=
  match h : step b s with
  | .error e           => .error e
  | .ok (.inr a, s')  => .ok (a, s')
  | .ok (.inl b', s') =>
    have := hstep h
    iterate step hstep b' s'
termination_by s.size

/-- A repetition takes what each of its steps takes. -/
theorem Takes.iterate {n : Nat} {step : σ → Reader (σ ⊕ α)} {hstep : Proceeds step}
    (h : ∀ b, Takes n (step b)) (b : σ) : Takes n (iterate step hstep b : Reader α) := by
  intro s a s' hs
  fun_induction Reader.iterate step hstep b s with
  | case1 => cases hs
  | case2 b s a' s1 h1 => cases hs; exact h b h1
  | case3 b s b' s1 h1 hlt ih => have := ih hs; omega

end Reader

end FlagSchema
