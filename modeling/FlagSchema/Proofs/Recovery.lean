import FlagSchema.Proofs.Views

/-!
# Readers in front of given tokens

What a reader makes of a stream that starts with certain kinds of tokens. Where agreement says that two runs
are alike, recovery says what a run gives: it takes the tokens and succeeds. The streams have no comments.

* **`Stream.Uncommented`**: streams without comments.
* **`Reader.Recovers`**: in front of certain kinds, a reader takes some and gives a certain value, places
  apart.
* **`Recovers.bind`**, **`Recovers.iterate_next`**, **`Recovers.gather`**: the rules for readers in a row,
  for loops, and for loops that collect what they read.
-/

namespace FlagSchema

open Token

-- ── Streams without comments ─────────────────────────────────────────────────────

namespace Stream

/-- A stream without comments, passed or to come. -/
structure Uncommented (s : Stream) : Prop where
  before : ∀ i ∈ s.items, i.before = []
  tail   : s.tail = []
  held   : s.held = []

variable {s : Stream} {k : Kind} {ks : List Kind}

theorem uncommented_ofTokens {ts : List Token} (h : ∀ t ∈ ts, t.kind.isComment = false) :
    (ofTokens ts).Uncommented := by
  induction ts with
  | nil => exact ⟨nofun, rfl, rfl⟩
  | cons t ts ih =>
      obtain ⟨ht, hts⟩ := List.forall_mem_cons.mp h
      obtain ⟨hbefore, htail, hheld⟩ := ih hts
      rw [ofTokens]
      split
      · next text hk => rw [hk] at ht; cases ht
      · exact ⟨List.forall_mem_cons.mpr ⟨rfl, hbefore⟩, htail, hheld⟩

/-- The first token of a stream without comments, and the stream behind it. -/
theorem Uncommented.exists_item (h : s.Uncommented) (hk : s.kinds = k :: ks) :
    ∃ i rest, s.items = i :: rest ∧ i.token.kind = k ∧ (s.skipItem i rest).Uncommented ∧
      (s.skipItem i rest).kinds = ks := by
  rw [kinds, tokens, List.map_map] at hk
  obtain ⟨i, rest, hitems, hkind, hrest⟩ := List.map_eq_cons_iff.mp hk
  have hbefore := h.before
  rw [hitems, List.forall_mem_cons] at hbefore
  refine ⟨i, rest, hitems, hkind, ⟨hbefore.2, h.tail, ?_⟩, ?_⟩
  · rw [skipItem, h.held, hbefore.1]
    rfl
  · rw [kinds, tokens, List.map_map]
    exact hrest

/-- No comment ends a line of a stream without comments. -/
theorem Uncommented.trailing?_eq_none (h : s.Uncommented) (line : Nat) : s.trailing? line = none := by
  rw [trailing?]
  split
  · rw [h.tail]
  · next i rest hitems => rw [h.before i (by rw [hitems]; exact List.mem_cons_self ..)]

end Stream

namespace Reader

variable {α β γ δ ξ σ τ ω : Type} {view : α → γ} {view' : β → δ} {ks ks' rest : List Kind} {c : γ} {d : δ}

/-- In front of tokens of kinds `ks` and then `rest`, a reader takes the former and gives a value that
    looks like `c`. -/
def Recovers (view : α → γ) (ks rest : List Kind) (c : γ) (r : Reader α) : Prop :=
  ∀ ⦃s : Stream⦄, s.Uncommented → s.kinds = ks ++ rest →
    ∃ a s', r s = .ok (a, s') ∧ s'.Uncommented ∧ s'.kinds = rest ∧ view a = c

namespace Recovers

-- ── Rules ────────────────────────────────────────────────────────────────────────

theorem pure {a : α} (h : view a = c) : Recovers view [] rest c (Pure.pure a) :=
  fun s hs hk => ⟨a, s, rfl, hs, hk, h⟩

/-- The second of two readers meets what the first leaves, and knows of its value what it looks like. -/
theorem bind {r : Reader α} {f : α → Reader β} (hr : Recovers view ks (ks' ++ rest) c r)
    (hf : ∀ a, view a = c → Recovers view' ks' rest d (f a)) :
    Recovers view' (ks ++ ks') rest d (r >>= f) := by
  intro s hs hk
  rw [List.append_assoc] at hk
  obtain ⟨a, s₁, hrun, hs₁, hk₁, ha⟩ := hr hs hk
  rw [bind_ok hrun]
  exact hf a ha hs₁ hk₁

/-- The first of two readers takes one token. -/
theorem bind_cons {k : Kind} {r : Reader α} {f : α → Reader β} (hr : Recovers view [k] (ks ++ rest) c r)
    (hf : ∀ a, view a = c → Recovers view' ks rest d (f a)) :
    Recovers view' (k :: ks) rest d (r >>= f) :=
  bind hr hf

/-- The first of two readers only looks ahead. -/
theorem bind_nil {r : Reader α} {f : α → Reader β} (hr : Recovers view [] (ks ++ rest) c r)
    (hf : ∀ a, view a = c → Recovers view' ks rest d (f a)) :
    Recovers view' ks rest d (r >>= f) :=
  bind hr hf

/-- The first of two readers takes everything. -/
theorem bind_all {r : Reader α} {f : α → Reader β} (hr : Recovers view ks rest c r)
    (hf : ∀ a, view a = c → Recovers view' [] rest d (f a)) :
    Recovers view' ks rest d (r >>= f) := by
  have hall := bind hr hf
  rwa [List.append_nil] at hall

-- ── Taking a token ───────────────────────────────────────────────────────────────

theorem require (what : Expectation) {form : Kind → Option α} {k : Kind} {a : α} (h : form k = some a) :
    Recovers Prod.fst [k] rest a (Reader.require what form) := by
  intro s hs hk
  obtain ⟨i, items, hitems, rfl, hs', hk'⟩ := hs.exists_item hk
  exact ⟨(a, i.token), s.skipItem i items, require_eq_ok_iff.mpr ⟨i, items, a, hitems, h, rfl, rfl⟩, hs', hk', rfl⟩

theorem next (what : Expectation) (k : Kind) : Recovers Token.kind [k] rest k (Reader.next what) := by
  intro s hs hk
  obtain ⟨i, items, hitems, rfl, hs', hk'⟩ := hs.exists_item hk
  have htake : Reader.require what some s = .ok ((i.token.kind, i.token), s.skipItem i items) := by
    simp only [Reader.require, hitems]
  exact ⟨i.token, s.skipItem i items, bind_ok htake, hs', hk', rfl⟩

theorem symbol (c : Char) : Recovers unseen [.symbol c] rest () (Reader.symbol c) :=
  bind_cons (require (.symbol c) (if_pos rfl)) fun _ _ => pure rfl

theorem name (what : Expectation) (n : String) : Recovers Prod.fst [.ident n] rest n (Reader.name what) :=
  require what rfl

theorem accept_some {form : Kind → Option α} {k : Kind} {a : α} (h : form k = some a) :
    Recovers (Option.map Prod.fst) [k] rest (some a) (Reader.accept form) := by
  intro s hs hk
  obtain ⟨i, items, hitems, rfl, hs', hk'⟩ := hs.exists_item hk
  exact ⟨some (a, i.token), s.skipItem i items, accept_eq_some_iff.mpr ⟨i, items, a, hitems, h, rfl, rfl⟩, hs', hk',
    rfl⟩

theorem accept_none {form : Kind → Option α} {k : Kind} (h : form k = none) :
    Recovers id [] (k :: rest) none (Reader.accept form) := by
  intro s hs hk
  obtain ⟨i, items, hitems, rfl, -, -⟩ := hs.exists_item hk
  exact ⟨none, s, by simp only [Reader.accept, hitems, h], hs, hk, rfl⟩

theorem acceptSymbol_true (c : Char) : Recovers id [.symbol c] rest true (Reader.acceptSymbol c) := by
  refine bind_cons (accept_some (if_pos rfl)) fun found hfound => pure ?_
  cases found with
  | none => cases hfound
  | some x => rfl

theorem acceptSymbol_false {c : Char} {k : Kind} (h : k ≠ .symbol c) :
    Recovers id [] (k :: rest) false (Reader.acceptSymbol c) := by
  refine bind_nil (accept_none (if_neg h)) fun found hfound => pure ?_
  rw [show found = none from hfound]
  rfl

-- ── Looking ahead ────────────────────────────────────────────────────────────────

theorem peek? : Recovers id [] rest rest.head? Reader.peek? := by
  intro s hs hk
  refine ⟨_, s, rfl, hs, hk, ?_⟩
  show s.kindAt? 0 = _
  rw [Stream.kindAt?_eq_kinds, hk, List.nil_append, List.head?_eq_getElem?]

theorem symbolAhead (n : Nat) (c : Char) :
    Recovers id [] rest (rest[n]? == some (.symbol c)) (Reader.symbolAhead n c) := by
  intro s hs hk
  refine ⟨_, s, rfl, hs, hk, ?_⟩
  show s.symbolAt n c = _
  rw [Stream.symbolAt, Stream.kindAt?_eq_kinds, hk, List.nil_append]

theorem atEnd : Recovers id [] rest rest.isEmpty Reader.atEnd := by
  intro s hs hk
  refine ⟨_, s, rfl, hs, hk, ?_⟩
  show s.items.isEmpty = _
  rw [List.nil_append] at hk
  rw [← hk, Stream.kinds, Stream.tokens, List.isEmpty_map, List.isEmpty_map]

theorem nextStart : Recovers unseen [] rest () Setting.nextStart :=
  fun s hs hk => ⟨_, s, rfl, hs, hk, rfl⟩

-- ── Comments ─────────────────────────────────────────────────────────────────────

theorem dropHeld : Recovers unseen [] rest () Reader.dropHeld :=
  fun s hs hk => ⟨(), { s with held := [] }, rfl, ⟨hs.before, hs.tail, rfl⟩, hk, rfl⟩

theorem takeHeld : Recovers id [] rest [] Reader.takeHeld :=
  fun s hs hk => ⟨s.held, { s with held := [] }, rfl, ⟨hs.before, hs.tail, rfl⟩, hk, hs.held⟩

theorem trailing (line : Nat) : Recovers id [] rest none (Reader.trailing line) := by
  intro s hs hk
  refine ⟨none, s, ?_, hs, hk, rfl⟩
  rw [Reader.trailing, hs.trailing?_eq_none]

-- ── Loops ────────────────────────────────────────────────────────────────────────

variable (gathered : σ → τ) {step : σ → Reader (σ ⊕ α)} {hstep : Proceeds step} {b : σ} {g : τ}

/-- A loop goes on from what a step has gathered. -/
theorem iterate_next (hs : Recovers (Sum.map gathered view) ks (ks' ++ rest) (.inl g) (step b))
    (h : ∀ b', gathered b' = g → Recovers view ks' rest c (iterate step hstep b')) :
    Recovers view (ks ++ ks') rest c (iterate step hstep b) := by
  rw [iterate_eq]
  refine bind hs fun x hx => ?_
  cases x with
  | inl b' => exact h b' (Sum.inl.inj hx)
  | inr a => cases hx

/-- A loop ends with what its last step gives. -/
theorem iterate_last (hs : Recovers (Sum.map gathered view) ks rest (.inr c) (step b)) :
    Recovers view ks rest c (iterate step hstep b) := by
  rw [iterate_eq]
  refine bind_all hs fun x hx => ?_
  cases x with
  | inl b' => cases hx
  | inr a => exact pure (Sum.inr.inj hx)

/-- A reader that collects the values of a list one after another has collected all of them behind it. -/
theorem gather {r : σ → Reader α} {kinds : ξ → List Kind} {xs : List ξ} (f : ξ → ω) (put : List ω → τ)
    (hx : ∀ x ∈ xs, ∀ {as b ks}, gathered b = put as →
      (∀ b', gathered b' = put (as ++ [f x]) → Recovers view ks rest c (r b')) →
      Recovers view (kinds x ++ ks) rest c (r b))
    (as : List ω) (hb : gathered b = put as)
    (h : ∀ b', gathered b' = put (as ++ xs.map f) → Recovers view ks rest c (r b')) :
    Recovers view (xs.flatMap kinds ++ ks) rest c (r b) := by
  induction xs generalizing as b with
  | nil =>
      refine h b ?_
      rw [hb, List.map_nil, List.append_nil]
  | cons x xs ih =>
      obtain ⟨hx, hxs⟩ := List.forall_mem_cons.mp hx
      rw [List.flatMap_cons, List.append_assoc]
      refine hx hb fun b' hb' => ih hxs _ hb' fun b'' hb'' => h b'' ?_
      rw [hb'', List.map_cons, List.append_assoc, List.singleton_append]

end Recovers

end Reader

end FlagSchema
