import FlagSchema.Proofs.Progress

/-!
# Indices into the tokens of a source

A stream is what is left of a list of tokens, and so it stands at an index into the list. Readers take tokens from
the front: they move the index forwards, never past the end of the list. All readers are built of a few operations of
which this is seen at once.

* **`Stream.At`**: a stream is what is left of tokens from an index on.
* **`Reader.Keeps`**: a reader leaves the end of its stream; **`Reader.Keeps.at`**: so it moves the index forwards.
* **`Reader.Built`**: a reader is built of operations on a stream; **`Reader.Built.keeps`**: it leaves the end of it.
-/

namespace FlagSchema

open Token

-- ── Indices ──────────────────────────────────────────────────────────────────────

namespace Stream

/-- A stream is what is left of tokens from an index on, which is their number at most. -/
def At (ts : List Token) (index : Nat) (s : Stream) : Prop :=
  index ≤ ts.length ∧ s.listing = (ts.drop index).map Token.entry

/-- A stream is what another one has left behind a significant token. -/
def Behind (s : Stream) (t : Token) (s' : Stream) : Prop :=
  ∃ front, s.listing = front ++ .inr t :: s'.listing

variable {ts : List Token} {k : Nat} {s s₁ s' : Stream} {t : Token}

/-- The stream of tokens stands at the first. -/
theorem at_ofTokens (ts : List Token) : (ofTokens ts).At ts 0 :=
  ⟨Nat.zero_le _, listing_ofTokens ts⟩

/-- Looking ahead finds the significant tokens behind the index. -/
theorem At.kindAt? (h : s.At ts k) (n : Nat) :
    s.kindAt? n = ((significant (ts.drop k))[n]?).map Token.kind := by
  rw [kindAt?_eq, tokens_eq_filterMap, h.2, significant_eq_filterMap]

/-- The index grows by the number of entries passed. -/
theorem At.add_length (h : s.At ts k) {front : List (Comment ⊕ Token)} (hfront : s.listing = front ++ s'.listing) :
    s'.At ts (k + front.length) := by
  obtain ⟨hk, hlisting⟩ := h
  have hlength := congrArg List.length (hfront.symm.trans hlisting)
  rw [List.length_append, List.length_map, List.length_drop] at hlength
  refine ⟨by omega, ?_⟩
  rw [← List.drop_drop, List.map_drop, ← hlisting, hfront, List.drop_left]

/-- So it grows by the number of significant tokens passed, at least. -/
theorem At.of_suffix (h : s.At ts k) (hsuffix : s'.listing <:+ s.listing) :
    ∃ k', k + s.size ≤ k' + s'.size ∧ k ≤ k' ∧ s'.At ts k' := by
  obtain ⟨front, hfront⟩ := hsuffix
  refine ⟨k + front.length, ?_, Nat.le_add_right _ _, h.add_length hfront.symm⟩
  have hfew : (front.filterMap Sum.getRight?).length ≤ front.length := List.length_filterMap_le ..
  rw [size_eq_length_tokens, size_eq_length_tokens, tokens_eq_filterMap, tokens_eq_filterMap, ← hfront,
    List.filterMap_append, List.length_append]
  omega

/-- The significant token behind which a stream is left is the one in front of its index. -/
theorem At.of_behind (h : s.At ts k) (hbehind : s.Behind t s') :
    ∃ k', k < k' ∧ s'.At ts k' ∧ ts[k' - 1]? = some t ∧ t.kind.isComment = false := by
  obtain ⟨front, hfront⟩ := hbehind
  have hpassed : s.listing = (front ++ [.inr t]) ++ s'.listing := by rw [hfront, List.append_assoc]; rfl
  have hentry : (ts[k + front.length]?).map Token.entry = some (.inr t) := by
    rw [← List.getElem?_drop, ← List.getElem?_map, ← h.2, hfront, List.getElem?_append_right (Nat.le_refl _),
      Nat.sub_self]
    rfl
  obtain ⟨u, hu, hentry⟩ := Option.map_eq_some_iff.mp hentry
  obtain ⟨hsignificant, rfl⟩ := Token.entry_eq_inr hentry
  have hat := h.add_length hpassed
  rw [List.length_append, List.length_singleton] at hat
  exact ⟨k + (front.length + 1), by omega, hat, hu, hsignificant⟩

theorem Behind.of_suffix (hsuffix : s₁.listing <:+ s.listing) (h : s₁.Behind t s') : s.Behind t s' := by
  obtain ⟨passed, hpassed⟩ := hsuffix
  obtain ⟨front, hfront⟩ := h
  exact ⟨passed ++ front, by rw [← hpassed, hfront, List.append_assoc]⟩

theorem Behind.suffix (h : s.Behind t s') : s'.listing <:+ s.listing := by
  obtain ⟨front, hfront⟩ := h
  exact ⟨front ++ [.inr t], by rw [hfront, List.append_assoc]; rfl⟩

/-- Taking an item leaves a stream behind its token. -/
theorem behind_skipItem {i : Item} {rest : List Item} (hitems : s.items = i :: rest) :
    s.Behind i.token (s.skipItem i rest) := by
  obtain ⟨items, tail, held⟩ := s
  cases hitems
  refine ⟨i.before.map .inl, ?_⟩
  rw [listing, List.flatMap_cons, List.append_assoc, List.append_assoc]
  rfl

end Stream

-- ── Readers move an index forwards ───────────────────────────────────────────────

namespace Reader

variable {α β σ : Type} {r : Reader α} {ts : List Token} {k n : Nat} {s s' : Stream} {a : α}

/-- Whenever a reader succeeds, it leaves the end of its stream. -/
def Keeps (r : Reader α) : Prop :=
  ∀ ⦃s a s'⦄, r s = .ok (a, s') → s'.listing <:+ s.listing

/-- It moves the index forwards then, at least by the number of tokens that it takes. -/
theorem Keeps.at_of_takes (hr : Keeps r) (htakes : Takes n r) (hs : s.At ts k) (h : r s = .ok (a, s')) :
    ∃ k', k + n ≤ k' ∧ s'.At ts k' := by
  obtain ⟨k', hsize, -, hat⟩ := hs.of_suffix (hr h)
  have hn := htakes h
  exact ⟨k', by omega, hat⟩

theorem Keeps.at (hr : Keeps r) (hs : s.At ts k) (h : r s = .ok (a, s')) : ∃ k', k ≤ k' ∧ s'.At ts k' := by
  obtain ⟨k', -, hle, hat⟩ := hs.of_suffix (hr h)
  exact ⟨k', hle, hat⟩

theorem Keeps.bind {f : α → Reader β} (hr : Keeps r) (hf : ∀ a, Keeps (f a)) : Keeps (r >>= f) := by
  intro s b s' h
  obtain ⟨a, s₁, h1, h2⟩ := exists_of_bind h
  exact (hf a h2).trans (hr h1)

/-- What every step preserves holds of what its repetition gives. -/
theorem iterate_invariant {step : σ → Reader (σ ⊕ α)} {hstep : Proceeds step} {I : σ → Stream → Prop}
    {J : α → Stream → Prop} (hgo : ∀ b s b' s', I b s → step b s = .ok (.inl b', s') → I b' s')
    (hend : ∀ b s a s', I b s → step b s = .ok (.inr a, s') → J a s') {b : σ} (hb : I b s)
    (h : iterate step hstep b s = .ok (a, s')) : J a s' := by
  fun_induction Reader.iterate step hstep b s with
  | case1 => cases h
  | case2 b s a' s₁ h1 => cases h; exact hend _ _ _ _ hb h1
  | case3 b s b' s₁ h1 hlt ih => exact ih (hgo _ _ _ _ hb h1) h

theorem Keeps.iterate {step : σ → Reader (σ ⊕ α)} {hstep : Proceeds step} (h : ∀ b, Keeps (step b)) (b : σ) :
    Keeps (iterate step hstep b) := by
  intro s a s' hs
  refine iterate_invariant (I := fun _ s₁ => s₁.listing <:+ s.listing) (J := fun _ s₁ => s₁.listing <:+ s.listing)
    (fun b s₁ b' s₂ h1 h2 => ?_) (fun b s₁ a s₂ h1 h2 => ?_) (List.suffix_refl _) hs
  · exact (h b h2).trans h1
  · exact (h b h2).trans h1

theorem Keeps.readBody {source : List Char} (h : Keeps (Message.readElement source)) (m : Message) :
    Keeps (Message.readBody source m) := by
  intro s m' s' hr
  rw [Message.readBody_eq_ok_iff] at hr
  induction hr with
  | close element => exact h element
  | push element _ _ ih => exact ih.trans (h element)
  | nested element _ _ ihInside ihRest => exact (ihRest.trans ihInside).trans (h element)

-- ── What readers are built of ────────────────────────────────────────────────────

/-- A reader is built of operations on a stream: it takes the next token if it has a certain form, or the comment
    behind the last one; it fails, or looks ahead and takes nothing, but for comments passed before; it is two readers
    in a row, or a step that is repeated. The body of a message is built of its elements. -/
inductive Built : {α : Type} → Reader α → Prop where
  | require {α : Type} (what : Expectation) (form : Kind → Option α) : Built (require what form)
  | accept {α : Type} (form : Kind → Option α) : Built (accept form)
  | trailing (line : Nat) : Built (trailing line)
  | fails {α : Type} {r : Reader α} (h : ∀ s, ∃ e, r s = .error e) : Built r
  | looks {α : Type} {r : Reader α} (h : ∀ s, ∃ a held, r s = .ok (a, { s with held })) : Built r
  | bind {α β : Type} {r : Reader α} {f : α → Reader β} (hr : Built r) (hf : ∀ a, Built (f a)) : Built (r >>= f)
  | iterate {α σ : Type} {step : σ → Reader (σ ⊕ α)} {hstep : Proceeds step} (h : ∀ b, Built (step b)) (b : σ) :
      Built (iterate step hstep b)
  | body {source : List Char} (h : Built (Message.readElement source)) (m : Message) :
      Built (Message.readBody source m)

/-- **A reader that is built of operations on a stream leaves the end of it.** -/
theorem Built.keeps (h : Built r) : Keeps r := by
  induction h with
  | require what form =>
      intro s x s' hr
      obtain ⟨i, rest, a, hitems, -, -, rfl⟩ := require_eq_ok_iff.mp hr
      exact (Stream.behind_skipItem hitems).suffix
  | accept form =>
      intro s found s' hr
      cases found with
      | none => rw [(accept_eq_none_iff.mp hr).2]
      | some x =>
          obtain ⟨i, rest, a, hitems, -, -, rfl⟩ := accept_eq_some_iff.mp hr
          exact (Stream.behind_skipItem hitems).suffix
  | trailing line =>
      intro s found s' hr
      cases found with
      | none => rw [eq_of_trailing_none hr]
      | some text =>
          obtain ⟨c, rfl, -, -⟩ := trailing_eq_some_iff.mp hr
          rw [Stream.listing_pushComment]
          exact List.suffix_cons ..
  | fails h =>
      intro s a s' hr
      obtain ⟨e, he⟩ := h s
      rw [he] at hr
      cases hr
  | looks h =>
      intro s a s' hr
      obtain ⟨b, held, hb⟩ := h s
      rw [hb] at hr
      cases hr
      exact List.suffix_refl _
  | bind _ _ ihr ihf => exact ihr.bind ihf
  | iterate _ b ih => exact .iterate ih b
  | body _ m ih => exact .readBody ih m

namespace Built

theorem pure (a : α) : Built (Pure.pure a : Reader α) := .looks fun s => ⟨a, s.held, rfl⟩

theorem peek? : Built Reader.peek? := .looks fun s => ⟨_, s.held, rfl⟩

theorem atEnd : Built Reader.atEnd := .looks fun s => ⟨_, s.held, rfl⟩

theorem symbolAhead (n : Nat) (c : Char) : Built (Reader.symbolAhead n c) := .looks fun s => ⟨_, s.held, rfl⟩

theorem dropHeld : Built Reader.dropHeld := .looks fun _ => ⟨_, _, rfl⟩

theorem takeHeld : Built Reader.takeHeld := .looks fun _ => ⟨_, _, rfl⟩

theorem fail (e : SchemaError) : Built (Reader.fail e : Reader α) := .fails fun _ => ⟨e, rfl⟩

theorem refuse (what : Expectation) : Built (Reader.refuse what : Reader α) := by
  refine .fails fun s => ?_
  unfold Reader.refuse
  split
  · exact ⟨_, rfl⟩
  · exact ⟨_, rfl⟩

theorem next (what : Expectation) : Built (Reader.next what) := .bind (.require ..) fun _ => .pure _

theorem symbol (c : Char) : Built (Reader.symbol c) := .bind (.require ..) fun _ => .pure _

theorem acceptSymbol (c : Char) : Built (Reader.acceptSymbol c) := .bind (.accept _) fun _ => .pure _

theorem name (what : Expectation) : Built (Reader.name what) := .require ..

end Built

end Reader

end FlagSchema
