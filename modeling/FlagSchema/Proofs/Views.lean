import FlagSchema.Proofs.Gists
import FlagSchema.Proofs.Replay

/-!
# Readers on the same kinds of tokens

Comments, line breaks and places may differ between two streams whose significant tokens have the same kinds.
No reader can tell: what it does shows the same on both.

* **`Stream.kinds`**: the kinds of the significant tokens that are left.
* **`Reader.shown`**: what a run shows of itself, its value through a view.
* **`Reader.Agrees`**: two readers show the same on streams of the same kinds.
* **`Agrees.bind`**, **`Agrees.iterate`**: the rules for readers in a row and for loops.
-/

namespace FlagSchema

open Token

-- ── Kinds of tokens left ─────────────────────────────────────────────────────────

namespace Stream

/-- The kinds of the significant tokens that are left. -/
def kinds (s : Stream) : List Kind := s.tokens.map Token.kind

variable {s s' : Stream}

theorem kindAt?_eq_kinds (s : Stream) (n : Nat) : s.kindAt? n = s.kinds[n]? := by
  rw [kindAt?_eq, kinds, List.getElem?_map]

theorem kinds_ofTokens (ts : List Token) : (ofTokens ts).kinds = (significant ts).map Token.kind := by
  rw [kinds, tokens_ofTokens]

/-- The first items of streams of the same kinds, and what is behind them. -/
theorem items_of_kinds (h : s.kinds = s'.kinds) :
    (s.items = [] ∧ s'.items = []) ∨
      ∃ i rest i' rest', s.items = i :: rest ∧ s'.items = i' :: rest' ∧ i.token.kind = i'.token.kind ∧
        (s.skipItem i rest).kinds = (s'.skipItem i' rest').kinds := by
  have hitems : ∀ t : Stream, t.kinds = t.items.map fun i => i.token.kind := fun t => List.map_map
  rw [hitems, hitems] at h
  cases hs : s.items with
  | nil =>
      rw [hs, List.map_nil] at h
      exact .inl ⟨rfl, List.map_eq_nil_iff.mp h.symm⟩
  | cons i rest =>
      rw [hs, List.map_cons] at h
      obtain ⟨i', rest', hs', hkind, hrest⟩ := List.map_eq_cons_iff.mp h.symm
      refine .inr ⟨i, rest, i', rest', rfl, hs', hkind.symm, ?_⟩
      rw [hitems, hitems]
      exact hrest.symm

end Stream

namespace Reader

variable {α β γ δ σ τ : Type}

-- ── What a run shows ─────────────────────────────────────────────────────────────

/-- What a run shows of itself: its value through a view and the kinds of the tokens left, or its error
    without the position. -/
def shown (view : α → γ) : Except SchemaError (α × Stream) → Except SchemaError (γ × List Kind)
  | .ok (a, s) => .ok (view a, s.kinds)
  | .error e   => .error e.unplaced

/-- Two readers show the same on streams of the same kinds. -/
def Agrees (view : α → γ) (r r' : Reader α) : Prop :=
  ∀ ⦃s s'⦄, s.kinds = s'.kinds → shown view (r s) = shown view (r' s')

/-- Runs that show the same both succeed or both fail. -/
theorem cases_of_shown {view : α → γ} {x x' : Except SchemaError (α × Stream)}
    (h : shown view x = shown view x') :
    (∃ a s a' s', x = .ok (a, s) ∧ x' = .ok (a', s') ∧ view a = view a' ∧ s.kinds = s'.kinds) ∨
      ∃ e e', x = .error e ∧ x' = .error e' ∧ e.unplaced = e'.unplaced := by
  cases x with
  | error e =>
      cases x' with
      | error e' => exact .inr ⟨e, e', rfl, rfl, Except.error.inj h⟩
      | ok p' => cases h
  | ok p =>
      cases x' with
      | error e' => cases h
      | ok p' =>
          obtain ⟨hview, hkinds⟩ := Prod.mk.inj (Except.ok.inj h)
          exact .inl ⟨p.1, p.2, p'.1, p'.2, rfl, rfl, hview, hkinds⟩

theorem shown_ok {view : α → γ} {a a' : α} {s s' : Stream} (h : view a = view a') (hs : s.kinds = s'.kinds) :
    shown view (.ok (a, s)) = shown view (.ok (a', s')) :=
  congrArg Except.ok (Prod.ext h hs)

theorem bind_error {r : Reader α} {f : α → Reader β} {s : Stream} {e : SchemaError} (h : r s = .error e) :
    (r >>= f) s = .error e := by
  show (r s >>= fun p => f p.1 p.2) = _
  rw [h]
  rfl

/-- A token with what was found in it, seen by its kind. -/
def formed (x : α × Token) : α × Kind := (x.1, x.2.kind)

/-- A value that is not looked at. -/
def unseen (_ : α) : Unit := ()

/-- Lists that show the same, with one more value each that shows the same. -/
theorem map_concat {view : α → γ} {as as' : List α} {a a' : α} (has : as.map view = as'.map view)
    (ha : view a = view a') : (as ++ [a]).map view = (as' ++ [a']).map view := by
  rw [List.map_append, List.map_append, has, List.map_singleton, List.map_singleton, ha]

namespace Agrees

variable {view : α → γ} {view' : β → δ}

theorem pure {a a' : α} (h : view a = view a') : Agrees view (Pure.pure a) (Pure.pure a') := by
  intro s s' hs
  exact shown_ok h hs

theorem fail {e e' : SchemaError} (h : e.unplaced = e'.unplaced) :
    Agrees view (Reader.fail e) (Reader.fail e') := by
  intro s s' hs
  exact congrArg Except.error h

/-- Readers in a row show the same if each of them does. -/
theorem bind {r r' : Reader α} {f f' : α → Reader β} (hr : Agrees view r r')
    (hf : ∀ a a', view a = view a' → Agrees view' (f a) (f' a')) : Agrees view' (r >>= f) (r' >>= f') := by
  intro s s' hs
  rcases cases_of_shown (hr hs) with ⟨a, s₁, a', s₁', h, h', hview, hkinds⟩ | ⟨e, e', h, h', herror⟩
  · rw [bind_ok h, bind_ok h']
    exact hf a a' hview hkinds
  · rw [bind_error h, bind_error h']
    exact congrArg Except.error herror

/-- What shows through a view also shows through a coarser one. -/
theorem coarsen (g : γ → δ) {r r' : Reader α} (h : Agrees view r r') : Agrees (g ∘ view) r r' := by
  intro s s' hs
  rcases cases_of_shown (h hs) with ⟨a, s₁, a', s₁', hr, hr', hview, hkinds⟩ | ⟨e, e', hr, hr', herror⟩
  · rw [hr, hr']
    exact shown_ok (congrArg g hview) hkinds
  · rw [hr, hr']
    exact congrArg Except.error herror

/-- What follows a reader whose value shows as it is. -/
theorem bind_id {r r' : Reader α} {f f' : α → Reader β} (hr : Agrees id r r')
    (hf : ∀ a, Agrees view' (f a) (f' a)) : Agrees view' (r >>= f) (r' >>= f') := by
  refine hr.bind fun a a' h => ?_
  cases h
  exact hf a

/-- What follows a reader whose value shows as it is, but not where it was found. -/
theorem bind_fst {ε : Type} {r r' : Reader (α × ε)} {f f' : α × ε → Reader β} (hr : Agrees Prod.fst r r')
    (hf : ∀ a x x', Agrees view' (f (a, x)) (f' (a, x'))) : Agrees view' (r >>= f) (r' >>= f') := by
  refine hr.bind ?_
  rintro ⟨a, x⟩ ⟨a', x'⟩ h
  cases h
  exact hf a x x'

/-- What follows a token that has been taken for its form. -/
theorem bind_formed {r r' : Reader (α × Token)} {f f' : α × Token → Reader β} (hr : Agrees formed r r')
    (hf : ∀ a t t', t.kind = t'.kind → Agrees view' (f (a, t)) (f' (a, t'))) :
    Agrees view' (r >>= f) (r' >>= f') := by
  refine hr.bind ?_
  rintro ⟨a, t⟩ ⟨a', t'⟩ h
  obtain ⟨ha, ht⟩ := Prod.mk.inj h
  cases ha
  exact hf a t t' ht

/-- Readers chosen by the same condition. -/
theorem ite {c : Prop} [Decidable c] {r r' t t' : Reader α} (hr : Agrees view r r') (ht : Agrees view t t') :
    Agrees view (if c then r else t) (if c then r' else t') := by
  split
  · exact hr
  · exact ht

-- ── Single tokens ────────────────────────────────────────────────────────────────

theorem refuse (what : Expectation) : Agrees view (Reader.refuse what) (Reader.refuse what) := by
  intro s s' hs
  unfold Reader.refuse
  rcases Stream.items_of_kinds hs with ⟨h, h'⟩ | ⟨i, rest, i', rest', h, h', hkind, -⟩
  · rw [h, h']
  · rw [h, h']
    dsimp only
    rw [hkind]
    rfl

theorem require (what : Expectation) (form : Kind → Option α) :
    Agrees formed (Reader.require what form) (Reader.require what form) := by
  intro s s' hs
  unfold Reader.require
  rcases Stream.items_of_kinds hs with ⟨h, h'⟩ | ⟨i, rest, i', rest', h, h', hkind, hrest⟩
  · rw [h, h']
  · rw [h, h']
    dsimp only
    rw [hkind]
    cases form i'.token.kind with
    | none => rfl
    | some a => exact shown_ok (Prod.ext rfl hkind) hrest

theorem accept (form : Kind → Option α) :
    Agrees (Option.map formed) (Reader.accept form) (Reader.accept form) := by
  intro s s' hs
  unfold Reader.accept
  rcases Stream.items_of_kinds hs with ⟨h, h'⟩ | ⟨i, rest, i', rest', h, h', hkind, hrest⟩
  · rw [h, h']
    exact shown_ok rfl hs
  · rw [h, h']
    dsimp only
    rw [hkind]
    cases form i'.token.kind with
    | none => exact shown_ok rfl hs
    | some a => exact shown_ok (congrArg some (Prod.ext rfl hkind)) hrest

/-- What follows a token that is taken if it has a certain form. -/
theorem bind_accept {form : Kind → Option α} {f f' : Option (α × Token) → Reader β}
    (hnone : Agrees view' (f none) (f' none))
    (hsome : ∀ a t t', t.kind = t'.kind → Agrees view' (f (some (a, t))) (f' (some (a, t')))) :
    Agrees view' (Reader.accept form >>= f) (Reader.accept form >>= f') := by
  refine (accept form).bind fun found found' h => ?_
  cases found with
  | none =>
      cases found' with
      | none => exact hnone
      | some x' => cases h
  | some x =>
      cases found' with
      | none => cases h
      | some x' =>
          obtain ⟨a, t⟩ := x
          obtain ⟨a', t'⟩ := x'
          obtain ⟨ha, ht⟩ := Prod.mk.inj (Option.some.inj h)
          cases ha
          exact hsome a t t' ht

theorem next (what : Expectation) : Agrees Token.kind (Reader.next what) (Reader.next what) :=
  (require what some).bind_formed fun _ _ _ h => pure h

theorem symbol (c : Char) : Agrees Token.kind (Reader.symbol c) (Reader.symbol c) :=
  (require _ _).bind_formed fun _ _ _ h => pure h

theorem name (what : Expectation) : Agrees formed (Reader.name what) (Reader.name what) :=
  require _ _

theorem acceptSymbol (c : Char) : Agrees id (Reader.acceptSymbol c) (Reader.acceptSymbol c) :=
  bind_accept (pure rfl) fun _ _ _ _ => pure rfl

-- ── Looking ahead ────────────────────────────────────────────────────────────────

theorem symbolAhead (n : Nat) (c : Char) : Agrees id (Reader.symbolAhead n c) (Reader.symbolAhead n c) := by
  intro s s' hs
  refine shown_ok ?_ hs
  rw [Stream.symbolAt, Stream.symbolAt, Stream.kindAt?_eq_kinds, Stream.kindAt?_eq_kinds, hs]

theorem peek? : Agrees id Reader.peek? Reader.peek? := by
  intro s s' hs
  refine shown_ok ?_ hs
  rw [Stream.kindAt?_eq_kinds, Stream.kindAt?_eq_kinds, hs]

theorem atEnd : Agrees id Reader.atEnd Reader.atEnd := by
  intro s s' hs
  refine shown_ok ?_ hs
  rcases Stream.items_of_kinds hs with ⟨h, h'⟩ | ⟨i, rest, i', rest', h, h', -⟩
  · rw [h, h']
  · rw [h, h']
    rfl

-- ── Comments and places ──────────────────────────────────────────────────────────

theorem dropHeld : Agrees unseen Reader.dropHeld Reader.dropHeld := by
  intro s s' hs
  exact shown_ok rfl hs

theorem takeHeld : Agrees unseen Reader.takeHeld Reader.takeHeld := by
  intro s s' hs
  exact shown_ok rfl hs

/-- Whether a comment is on the line of a token does not show. -/
theorem trailing (line line' : Nat) : Agrees unseen (Reader.trailing line) (Reader.trailing line') := by
  intro s s' hs
  obtain ⟨c, s₁, h, hkinds⟩ := trailing_total line s
  obtain ⟨c', s₁', h', hkinds'⟩ := trailing_total line' s'
  rw [h, h']
  refine shown_ok rfl ?_
  rw [Stream.kinds, hkinds, Stream.kinds, hkinds']
  exact hs

theorem nextStart : Agrees unseen Setting.nextStart Setting.nextStart := by
  intro s s' hs
  exact shown_ok rfl hs

-- ── Loops ────────────────────────────────────────────────────────────────────────

/-- **Loops show the same if their steps do.** What a loop has gathered may be seen by a view of its own. -/
theorem iterate (gathered : σ → τ) {step step' : σ → Reader (σ ⊕ α)} {hstep : Proceeds step}
    {hstep' : Proceeds step'}
    (h : ∀ b b', gathered b = gathered b' → Agrees (Sum.map gathered view) (step b) (step' b'))
    {b b' : σ} (hb : gathered b = gathered b') :
    Agrees view (Reader.iterate step hstep b) (Reader.iterate step' hstep' b') := by
  intro s s' hs
  induction hn : s.size using Nat.strong_induction_on generalizing b b' s s' with
  | _ n ih =>
  rw [iterate_eq, iterate_eq]
  rcases cases_of_shown (h b b' hb hs) with ⟨x, s₁, x', s₁', h₁, h₁', hview, hkinds⟩ | ⟨e, e', h₁, h₁', herror⟩
  · rw [bind_ok h₁, bind_ok h₁']
    cases x with
    | inl c =>
        cases x' with
        | inl c' => exact ih _ (hn ▸ hstep h₁) (Sum.inl.inj hview) hkinds rfl
        | inr a' => cases hview
    | inr a =>
        cases x' with
        | inl c' => cases hview
        | inr a' => exact shown_ok (Sum.inr.inj hview) hkinds
  · rw [bind_error h₁, bind_error h₁']
    exact congrArg Except.error herror

end Agrees

end Reader

end FlagSchema
