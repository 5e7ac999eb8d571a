import FlagSchema.Proofs.Holding

/-!
# Readers on copied words

What a reader does depends on the words in front of it and on nothing else: it does the same where the
same words stand in another source, as long as what follows looks the same as far as it looks ahead.

* **`Reader.Passes`**: a reader takes words from the front and holds the comments among them.
* **`Reader.Replays`**: a reader does on a copy what another did on the words it took. The two may give
  different values, which an **`Outcome`** relates.
* **`Replays.bind`**, **`Replays.look`**, **`Replays.iterate`**: the rules for readers in a row, for
  looking ahead and for loops.
-/

namespace FlagSchema

open Token

-- ── Looking ahead ────────────────────────────────────────────────────────────────

/-- The first `n` tokens of two lists have the same kinds. -/
def Token.Ahead (n : Nat) (ts us : List Token) : Prop :=
  (ts.map Token.kind).take n = (us.map Token.kind).take n

namespace Token.Ahead

theorem refl (n : Nat) (ts : List Token) : Ahead n ts ts := rfl

theorem zero (ts us : List Token) : Ahead 0 ts us := by
  rw [Ahead, List.take_zero, List.take_zero]

theorem mono {m n : Nat} {ts us : List Token} (h : Ahead n ts us) (hm : m ≤ n) : Ahead m ts us := by
  have htake : ∀ ks : List Kind, ks.take m = (ks.take n).take m := by
    intro ks
    rw [List.take_take, Nat.min_eq_left hm]
  rw [Ahead, htake, h, ← htake]

/-- Tokens of the same kinds in front let a reader look further. -/
theorem append {m n : Nat} {xs ys ts us : List Token} (h : Ahead n ts us)
    (hxy : xs.map Token.kind = ys.map Token.kind) (hm : m ≤ n + xs.length) :
    Ahead m (xs ++ ts) (ys ++ us) := by
  have hrest : Ahead (m - xs.length) ts us := h.mono (by omega)
  have hlen : (xs.map Token.kind).length = xs.length := List.length_map ..
  rw [Ahead, List.map_append, List.map_append, ← hxy, List.take_append, List.take_append, hlen]
  rw [show ((ts.map Token.kind).take (m - xs.length)) = _ from hrest]

/-- Two lists that start with tokens of the same kind look the same in front. -/
theorem cons {t u : Token} (h : t.kind = u.kind) (ts us : List Token) : Ahead 1 (t :: ts) (u :: us) := by
  rw [Ahead, List.map_cons, List.map_cons, h]
  rfl

theorem getElem? {n i : Nat} {ts us : List Token} (h : Ahead n ts us) (hi : i < n) :
    (ts[i]?).map Token.kind = (us[i]?).map Token.kind := by
  have hget : ∀ ks : List Kind, ks[i]? = (ks.take n)[i]? := by
    intro ks
    rw [List.getElem?_take, if_pos hi]
  rw [← List.getElem?_map, ← List.getElem?_map, hget, h, ← hget]

end Token.Ahead

namespace Stream

theorem kindAt?_eq (s : Stream) (n : Nat) : s.kindAt? n = (s.tokens[n]?).map Token.kind := by
  rw [kindAt?, tokens, List.getElem?_map, Option.map_map]
  rfl

/-- The first of the tokens left is that of the first item. -/
theorem exists_items {s : Stream} {t : Token} {ts : List Token} (h : s.tokens = t :: ts) :
    ∃ i rest, s.items = i :: rest ∧ i.token = t ∧ (s.skipItem i rest).tokens = ts := by
  cases hi : s.items with
  | nil => rw [tokens, hi] at h; cases h
  | cons i rest =>
      rw [tokens, hi, List.map_cons, List.cons.injEq] at h
      exact ⟨i, rest, rfl, h.1, h.2⟩

theorem tokens_pushComment (c : Comment) (s : Stream) : (s.pushComment c).tokens = s.tokens := by
  rw [tokens_eq_filterMap, listing_pushComment, tokens_eq_filterMap]
  rfl

namespace Holds

variable {source : List Char} {s : Stream} {p q : Place} {vs ws us : List Word}

theorem length_eq (h : s.Holds source p ws) : s.listing.length = ws.length := by
  rw [h.listing, List.length_map, length_placed]

/-- A stream holds what it holds: two cuts of words that leave it the rest are the same. -/
theorem cut_unique {vs' us' : List Word} (hs : s.Holds source p us) (hs' : s.Holds source q us')
    (h : vs ++ us = vs' ++ us') : vs = vs' ∧ us = us' :=
  List.append_inj' h (hs.length_eq.symm.trans hs'.length_eq)

/-- Where nothing is taken, there are no words that were. -/
theorem eq_nil_of_same (hs : s.Holds source p (vs ++ ws)) (hs' : s.Holds source q ws) : vs = [] := by
  have hlen := hs.length_eq.symm.trans hs'.length_eq
  rw [List.length_append] at hlen
  exact List.eq_nil_of_length_eq_zero (by omega)

/-- The tokens in front of a cut. -/
theorem tokens_cut {s' : Stream} {p' : Place} (hs : s.Holds source p (vs ++ ws))
    (hs' : s'.Holds source p' ws) (hp : p' = p.after (textOf vs)) :
    s.tokens = significant (placed p vs) ++ s'.tokens := by
  rw [hs.tokens, hs'.tokens, hp, placed_append, significant_append]

/-- Where the next token of a stream starts. -/
theorem start_head (h : s.Holds source p ws) {i : Item} {rest : List Item} (hi : s.items = i :: rest) :
    i.token.span.start = startOf p ws := by
  obtain ⟨cs, w, ws', rfl, hcs, hw, htoken, -⟩ := h.next hi
  rw [htoken, startOf_comments hcs hw, Word.start_token]

/-- The kind of the next token of a stream. -/
theorem kindAt?_zero {cs : List Word} {w : Word} (h : s.Holds source p (cs ++ w :: ws))
    (hcs : ∀ c ∈ cs, c.kind.isComment = true) (hw : w.kind.isComment = false) :
    s.kindAt? 0 = some w.kind := by
  rw [kindAt?_eq, h.tokens, significant_placed_cons hcs hw]
  rfl

/-- Words from which a token was taken hold a significant one. -/
theorem significant_ne_nil {s' : Stream} {p' : Place} (hs : s.Holds source p (vs ++ ws))
    (hs' : s'.Holds source p' ws) (hp : p' = p.after (textOf vs)) (hsize : s'.size < s.size) :
    significant (placed p vs) ≠ [] := by
  intro h
  have hcut := hs.tokens_cut hs' hp
  rw [h, List.nil_append] at hcut
  rw [size_eq_length_tokens, size_eq_length_tokens, hcut] at hsize
  exact absurd hsize (Nat.lt_irrefl _)

end Holds

end Stream

namespace Reader

variable {α β γ σ : Type} {source source' : List Char}

theorem tokens_trailing {s s' : Stream} {line : Nat} {c : Option String}
    (h : trailing line s = .ok (c, s')) : s'.tokens = s.tokens := by
  cases c with
  | none => rw [eq_of_trailing_none h]
  | some text =>
      obtain ⟨c, rfl, -, -⟩ := trailing_eq_some_iff.mp h
      exact (Stream.tokens_pushComment c s').symm

/-- Whether a comment is behind a token can always be told. -/
theorem trailing_total (line : Nat) (s : Stream) :
    ∃ c s', trailing line s = .ok (c, s') ∧ s'.tokens = s.tokens := by
  obtain ⟨c, s', h⟩ : ∃ c s', trailing line s = .ok (c, s') := by
    unfold trailing
    split
    · exact ⟨_, _, rfl⟩
    · exact ⟨_, _, rfl⟩
  exact ⟨c, s', h, tokens_trailing h⟩

/-- What two readers in a row do when the first succeeds. -/
theorem bind_ok {r : Reader α} {f : α → Reader β} {s s₁ : Stream} {a : α} (h : r s = .ok (a, s₁)) :
    (r >>= f) s = f a s₁ := by
  show (r s >>= fun p => f p.1 p.2) = _
  rw [h]
  rfl

/-- A token that is taken has the form. -/
theorem kind_of_require {what : Expectation} {form : Kind → Option α} {s s' : Stream} {x : α × Token}
    (h : require what form s = .ok (x, s')) :
    s.kindAt? 0 = some x.2.kind ∧ form x.2.kind = some x.1 := by
  obtain ⟨i, rest, a, hi, hform, rfl, -⟩ := require_eq_ok_iff.mp h
  refine ⟨?_, hform⟩
  rw [Stream.kindAt?, hi]
  rfl

/-- A name is the name of its token. -/
theorem kind_of_name {what : Expectation} {s s' : Stream} {x : String × Token}
    (h : name what s = .ok (x, s')) : s.kindAt? 0 = some (.ident x.1) ∧ x.2.kind = .ident x.1 := by
  obtain ⟨hk, hform⟩ := kind_of_require h
  have hident : x.2.kind = .ident x.1 := by
    unfold nameForm at hform
    split at hform
    · next n hn => cases hform; exact hn
    · cases hform
  exact ⟨hident ▸ hk, hident⟩

/-- A symbol that is not there is not taken. -/
theorem eq_of_acceptSymbol_false {c : Char} {s s' : Stream}
    (h : acceptSymbol c s = .ok (false, s')) : s' = s := by
  obtain ⟨found, s₁, h1, h2⟩ := exists_of_bind h
  cases found with
  | some x => cases h2
  | none =>
      cases h2
      exact (accept_eq_none_iff.mp h1).2

/-- What is accepted has the form. -/
theorem form_of_accept {form : Kind → Option α} {s s' : Stream} {x : α × Token}
    (h : accept form s = .ok (some x, s')) : form x.2.kind = some x.1 := by
  obtain ⟨i, rest, a, -, hform, rfl, -⟩ := accept_eq_some_iff.mp h
  exact hform

/-- The next item is a significant word, with the comments in front of it. -/
theorem skipItem_inv {form : Kind → Option α} {a : α} {s : Stream} {p : Place} {ws : List Word} {i : Item}
    {rest : List Item} (hs : s.Holds source p ws) (hi : s.items = i :: rest) (hform : form i.token.kind = some a) :
    ∃ cs w ws', ws = cs ++ w :: ws' ∧ (∀ c ∈ cs, c.kind.isComment = true) ∧ w.kind.isComment = false ∧
      form w.kind = some a ∧ i.token = w.token (p.after (textOf cs)) ∧
      (s.skipItem i rest).held = s.held ++ comments cs ∧
      (s.skipItem i rest).Holds source (p.after (textOf (cs ++ [w]))) ws' := by
  obtain ⟨cs, w, ws', rfl, hcs, hw, htoken, htexts, hs'⟩ := hs.next hi
  rw [htoken, Word.token_kind] at hform
  refine ⟨cs, w, ws', rfl, hcs, hw, hform, htoken, ?_, hs'⟩
  rw [htexts]
  rfl

/-- A token of the form is taken, with the comments in front of it. -/
theorem accept_some_inv {form : Kind → Option α} {s s' : Stream} {p : Place} {ws : List Word}
    {x : α × Token} (hs : s.Holds source p ws) (h : accept form s = .ok (some x, s')) :
    ∃ cs v ws', ws = cs ++ v :: ws' ∧ (∀ c ∈ cs, c.kind.isComment = true) ∧
      v.kind.isComment = false ∧ form v.kind = some x.1 ∧ x.2 = v.token (p.after (textOf cs)) ∧
      s'.held = s.held ++ comments cs ∧ s'.Holds source (p.after (textOf (cs ++ [v]))) ws' := by
  obtain ⟨i, rest, a, hi, hform, rfl, rfl⟩ := accept_eq_some_iff.mp h
  exact skipItem_inv hs hi hform

theorem kind_of_symbolForm {c : Char} {k : Kind} {u : Unit} (h : symbolForm c k = some u) :
    k = .symbol c := by
  unfold symbolForm at h
  split at h
  · assumption
  · cases h

/-- What is required is the next significant word, with the comments in front of it. -/
theorem require_inv {what : Expectation} {form : Kind → Option α} {s s' : Stream} {p : Place}
    {ws : List Word} {x : α × Token} (hs : s.Holds source p ws) (h : require what form s = .ok (x, s')) :
    ∃ cs w ws', ws = cs ++ w :: ws' ∧ (∀ c ∈ cs, c.kind.isComment = true) ∧
      w.kind.isComment = false ∧ form w.kind = some x.1 ∧ x.2 = w.token (p.after (textOf cs)) ∧
      s'.held = s.held ++ comments cs ∧ s'.Holds source (p.after (textOf (cs ++ [w]))) ws' := by
  obtain ⟨i, rest, a, hi, hform, rfl, rfl⟩ := require_eq_ok_iff.mp h
  exact skipItem_inv hs hi hform

theorem name_inv {what : Expectation} {s s' : Stream} {p : Place} {ws : List Word}
    {x : String × Token} (hs : s.Holds source p ws) (h : name what s = .ok (x, s')) :
    ∃ cs w ws', ws = cs ++ w :: ws' ∧ (∀ c ∈ cs, c.kind.isComment = true) ∧
      w.kind = .ident x.1 ∧ x.2 = w.token (p.after (textOf cs)) ∧
      s'.held = s.held ++ comments cs ∧ s'.Holds source (p.after (textOf (cs ++ [w]))) ws' := by
  obtain ⟨cs, w, ws', hws, hcs, -, -, htoken, hheld, hs'⟩ := require_inv hs h
  have hident := (kind_of_name h).2
  rw [htoken, Word.token_kind] at hident
  exact ⟨cs, w, ws', hws, hcs, hident, htoken, hheld, hs'⟩

theorem symbol_inv {c : Char} {s s' : Stream} {p : Place} {ws : List Word} {t : Token}
    (hs : s.Holds source p ws) (h : symbol c s = .ok (t, s')) :
    ∃ cs w ws', ws = cs ++ w :: ws' ∧ (∀ c ∈ cs, c.kind.isComment = true) ∧ w.kind = .symbol c ∧
      t = w.token (p.after (textOf cs)) ∧ s'.held = s.held ++ comments cs ∧
      s'.Holds source (p.after (textOf (cs ++ [w]))) ws' := by
  obtain ⟨x, s₁, h1, h2⟩ := exists_of_bind h
  cases h2
  obtain ⟨cs, w, ws', hws, hcs, -, hform, htoken, hheld, hs'⟩ := require_inv hs h1
  exact ⟨cs, w, ws', hws, hcs, kind_of_symbolForm hform, htoken, hheld, hs'⟩

/-- A symbol that is there is taken. -/
theorem acceptSymbol_true_inv {c : Char} {s s' : Stream} {p : Place} {ws : List Word}
    (hs : s.Holds source p ws) (h : acceptSymbol c s = .ok (true, s')) :
    ∃ cs v ws', ws = cs ++ v :: ws' ∧ (∀ c ∈ cs, c.kind.isComment = true) ∧ v.kind = .symbol c ∧
      s'.Holds source (p.after (textOf (cs ++ [v]))) ws' := by
  obtain ⟨found, s₁, h1, h2⟩ := exists_of_bind h
  cases found with
  | none => cases h2
  | some x =>
      cases h2
      obtain ⟨cs, v, ws', hws, hcs, -, hform, -, -, hs'⟩ := accept_some_inv hs h1
      exact ⟨cs, v, ws', hws, hcs, kind_of_symbolForm hform, hs'⟩

/-- A loop is its first step and what that asks for. -/
theorem iterate_eq (step : σ → Reader (σ ⊕ α)) (hstep : Proceeds step) (b : σ) :
    iterate step hstep b = step b >>= Sum.elim (iterate step hstep) pure := by
  funext s
  rw [iterate]
  split
  · next e h =>
      show _ = (step b s >>= fun p => _)
      rw [h]
      rfl
  · next h => rw [bind_ok h]; rfl
  · next h => rw [bind_ok h]; rfl

theorem eq_of_peek? {s s' : Stream} {kind : Option Kind} (h : peek? s = .ok (kind, s')) :
    s' = s ∧ s.kindAt? 0 = kind := by
  cases h
  exact ⟨rfl, rfl⟩

/-- A comment behind a token is the next word. -/
theorem trailing_inv {line : Nat} {s s' : Stream} {p : Place} {ws : List Word} {c : Option String}
    (hs : s.Holds source p ws) (h : Reader.trailing line s = .ok (c, s')) :
    ∃ ts ws', ws = ts ++ ws' ∧ s'.Holds source (p.after (textOf ts)) ws' ∧ s'.held = s.held ∧
      comments ts = c.toList ∧ ∀ t ∈ ts, t.kind.isComment = true := by
  cases c with
  | none =>
      rw [eq_of_trailing_none h]
      exact ⟨[], ws, rfl, hs, rfl, rfl, nofun⟩
  | some text =>
      obtain ⟨c, rfl, -, rfl⟩ := trailing_eq_some_iff.mp h
      obtain ⟨w, ws', rfl, hw, hs'⟩ := hs.of_pushComment
      refine ⟨[w], ws', rfl, ?_, (Stream.held_pushComment ..).symm, comments_cons_comment hw [], ?_⟩
      · rw [textOf_cons, textOf_nil, List.append_nil]
        exact hs'
      · intro t ht
        rw [List.mem_singleton.mp ht, hw]
        rfl

-- ── Passing words ────────────────────────────────────────────────────────────────

/-- A reader takes words from the front of a stream. If it keeps to that, it holds the comments among
    them. -/
def Passes (source : List Char) (keeps : Bool) (r : Reader α) : Prop :=
  ∀ ⦃s p ws a s'⦄, s.Holds source p ws → r s = .ok (a, s') →
    ∃ vs ws', ws = vs ++ ws' ∧ s'.Holds source (p.after (textOf vs)) ws' ∧
      (keeps = true → s'.held = s.held ++ comments vs)

namespace Passes

variable {keeps : Bool}

/-- A reader that leaves the stream alone. -/
theorem of_same {r : Reader α} (h : ∀ ⦃s a s'⦄, r s = .ok (a, s') → s' = s) : Passes source keeps r := by
  intro s p ws a s' hs hr
  obtain rfl := h hr
  exact ⟨[], ws, rfl, hs, fun _ => (List.append_nil _).symm⟩

theorem pure (a : α) : Passes source keeps (Pure.pure a : Reader α) :=
  of_same fun _ _ _ h => by cases h; rfl

theorem fail (e : SchemaError) : Passes source keeps (Reader.fail e : Reader α) :=
  of_same fun _ _ _ h => by cases h

theorem refuse (what : Expectation) : Passes source keeps (Reader.refuse what : Reader α) := by
  intro s p ws a s' hs h
  exact absurd h (refuse_ne_ok _ _ _)

theorem peek? : Passes source keeps Reader.peek? :=
  of_same fun _ _ _ h => by cases h; rfl

theorem symbolAhead (n : Nat) (c : Char) : Passes source keeps (Reader.symbolAhead n c) :=
  of_same fun _ _ _ h => by cases h; rfl

/-- What is held is no matter to a reader that need not keep it. -/
theorem of_held {r : Reader α}
    (h : ∀ ⦃s a s'⦄, r s = .ok (a, s') → s'.listing = s.listing) : Passes source false r := by
  intro s p ws a s' hs hr
  exact ⟨[], ws, rfl, ⟨hs.lies, (h hr).trans hs.listing⟩, nofun⟩

theorem dropHeld : Passes source false Reader.dropHeld :=
  of_held fun _ _ _ h => by cases h; rfl

theorem takeHeld : Passes source false Reader.takeHeld :=
  of_held fun _ _ _ h => by cases h; rfl

theorem trailing (line : Nat) : Passes source false (Reader.trailing line) := by
  intro s p ws c s' hs h
  obtain ⟨ts, ws', rfl, hs', -⟩ := trailing_inv hs h
  exact ⟨ts, ws', rfl, hs', nofun⟩

theorem bind {r : Reader α} {f : α → Reader β} (hr : Passes source keeps r)
    (hf : ∀ a, Passes source keeps (f a)) : Passes source keeps (r >>= f) := by
  intro s p ws b s' hs h
  obtain ⟨a, s₁, h1, h2⟩ := exists_of_bind h
  obtain ⟨vs, ws₁, rfl, hs₁, hheld₁⟩ := hr hs h1
  obtain ⟨us, ws', rfl, hs', hheld'⟩ := hf a hs₁ h2
  refine ⟨vs ++ us, ws', (List.append_assoc ..).symm, ?_, ?_⟩
  · rw [textOf_append, Place.after_append]
    exact hs'
  · intro h
    rw [hheld' h, hheld₁ h, comments_append, List.append_assoc]

/-- The next item and the comments in front of it are passed. -/
theorem of_skipItem {s : Stream} {p : Place} {ws : List Word} {i : Item} {rest : List Item}
    (hs : s.Holds source p ws) (hi : s.items = i :: rest) :
    ∃ vs ws', ws = vs ++ ws' ∧ (s.skipItem i rest).Holds source (p.after (textOf vs)) ws' ∧
      (keeps = true → (s.skipItem i rest).held = s.held ++ comments vs) := by
  obtain ⟨cs, w, ws', rfl, -, hw, -, htexts, hs'⟩ := hs.next hi
  refine ⟨cs ++ [w], ws', by rw [List.append_assoc]; rfl, hs', fun _ => ?_⟩
  rw [comments_append, comments_cons hw, comments_nil, List.append_nil, htexts]
  rfl

theorem require (what : Expectation) (form : Kind → Option α) :
    Passes source keeps (Reader.require what form) := by
  intro s p ws x s' hs h
  obtain ⟨i, rest, a, hi, -, -, rfl⟩ := require_eq_ok_iff.mp h
  exact of_skipItem hs hi

theorem accept (form : Kind → Option α) : Passes source keeps (Reader.accept form) := by
  intro s p ws found s' hs h
  cases found with
  | none =>
      rw [(accept_eq_none_iff.mp h).2]
      exact ⟨[], ws, rfl, hs, fun _ => (List.append_nil _).symm⟩
  | some x =>
      obtain ⟨i, rest, a, hi, -, -, rfl⟩ := accept_eq_some_iff.mp h
      exact of_skipItem hs hi

theorem next (what : Expectation) : Passes source keeps (Reader.next what) :=
  bind (require _ _) fun _ => pure _

theorem symbol (c : Char) : Passes source keeps (Reader.symbol c) :=
  bind (require _ _) fun _ => pure _

theorem acceptSymbol (c : Char) : Passes source keeps (Reader.acceptSymbol c) :=
  bind (accept _) fun _ => pure _

theorem name (what : Expectation) : Passes source keeps (Reader.name what) :=
  require _ _

theorem iterate {step : σ → Reader (σ ⊕ α)} {hstep : Proceeds step}
    (h : ∀ b, Passes source keeps (step b)) (b : σ) :
    Passes source keeps (Reader.iterate step hstep b : Reader α) := by
  intro s p ws a s' hs hr
  fun_induction Reader.iterate step hstep b s generalizing p ws with
  | case1 => cases hr
  | case2 b s a' s₁ h1 =>
      cases hr
      exact h b hs h1
  | case3 b s b' s₁ h1 hlt ih =>
      obtain ⟨vs, ws₁, rfl, hs₁, hheld₁⟩ := h b hs h1
      obtain ⟨us, ws', rfl, hs', hheld'⟩ := ih hs₁ hr
      refine ⟨vs ++ us, ws', (List.append_assoc ..).symm, ?_, ?_⟩
      · rw [textOf_append, Place.after_append]
        exact hs'
      · intro h
        rw [hheld' h, hheld₁ h, comments_append, List.append_assoc]

end Passes

-- ── Doing the same again ─────────────────────────────────────────────────────────

/-- What relates the values that two readers give for the same words. -/
abbrev Outcome (α : Type) := List Word → α → α → Prop

namespace Outcome

/-- Values that are related whatever the words are. -/
def value (rel : α → α → Prop) : Outcome α := fun _ a b => rel a b

/-- A relation of what comes of more words, for a reader behind the first of them. -/
def behind (S : Outcome α) (vs : List Word) : Outcome α := fun us a b => S (vs ++ us) a b

/-- The tokens of one significant word, the last of the words, with comments in front of it. -/
def taken (p q : Place) : Outcome Token := fun vs t u =>
  ∃ cs w, vs = cs ++ [w] ∧ (∀ c ∈ cs, c.kind.isComment = true) ∧ w.kind.isComment = false ∧
    t = w.token (p.after (textOf cs)) ∧ u = w.token (q.after (textOf cs))

/-- The tokens of the last of the words. -/
def last (p q : Place) : Outcome Token := fun vs t u =>
  ∃ us w, vs = us ++ [w] ∧ t = w.token (p.after (textOf us)) ∧ u = w.token (q.after (textOf us))

/-- A token with what was read from its form. -/
def takenWith (form : Kind → Option α) (p q : Place) : Outcome (α × Token) := fun vs x y =>
  form x.2.kind = some x.1 ∧ x.1 = y.1 ∧ taken p q vs x.2 y.2

/-- A token with what was read from its form, or neither. -/
def accepted (form : Kind → Option α) (p q : Place) : Outcome (Option (α × Token)) := fun vs x y =>
  (x = none ∧ y = none ∧ vs = []) ∨ ∃ a b, x = some a ∧ y = some b ∧ takenWith form p q vs a b

/-- A symbol. -/
def symbol (c : Char) (p q : Place) : Outcome Token := fun vs t u =>
  t.kind = .symbol c ∧ taken p q vs t u

/-- A step that goes on, or one that ends. -/
def step (I : Outcome σ) (R : Outcome α) : Outcome (σ ⊕ α) := fun vs x y =>
  (∃ b c, x = .inl b ∧ y = .inl c ∧ I vs b c) ∨ (∃ a b, x = .inr a ∧ y = .inr b ∧ R vs a b)

variable {p q : Place} {vs us : List Word} {t u : Token}

theorem taken.last (h : taken p q vs t u) : last p q vs t u := by
  obtain ⟨cs, w, hvs, -, -, ht, hu⟩ := h
  exact ⟨cs, w, hvs, ht, hu⟩

theorem last.kind_eq (h : Outcome.last p q vs t u) : t.kind = u.kind := by
  obtain ⟨us, w, -, rfl, rfl⟩ := h
  rfl

theorem last.stop_eq (h : Outcome.last p q vs t u) :
    t.span.stop = (p.after (textOf vs)).offset := by
  obtain ⟨us, w, rfl, rfl, -⟩ := h
  rw [textOf_append, textOf_cons, textOf_nil, List.append_nil, Place.after_append]
  rfl

/-- The last of some words is the last behind others. -/
theorem last.append (h : Outcome.last (p.after (textOf vs)) (q.after (textOf vs)) us t u) :
    Outcome.last p q (vs ++ us) t u := by
  obtain ⟨xs, w, rfl, ht, hu⟩ := h
  refine ⟨vs ++ xs, w, (List.append_assoc ..).symm, ?_, ?_⟩
  · rw [ht, textOf_append, Place.after_append]
  · rw [hu, textOf_append, Place.after_append]

end Outcome

/-- A reader does on a copy behind `q` what another did on the words it took behind `p`, if what follows
    looks the same up to `n` tokens ahead. -/
def Replays (source source' : List Char) (p q : Place) (n : Nat) (R : Outcome α)
    (r r' : Reader α) : Prop :=
  ∀ ⦃s vs ws a s'⦄, s.Holds source p (vs ++ ws) → r s = .ok (a, s') →
    s'.Holds source (p.after (textOf vs)) ws →
    ∀ ⦃t us⦄, Lies source' q vs → t.tokens = significant (placed q vs) ++ us →
      Ahead n s'.tokens us → ∃ b t', r' t = .ok (b, t') ∧ t'.tokens = us ∧ R vs a b

namespace Replays

variable {m n k : Nat} {p q : Place}

/-- A reader does again where it stands what it does. -/
theorem self {R : Outcome α} {r : Reader α} (h : Replays source source p p n R r r) {s s' : Stream}
    {vs ws : List Word} {a : α} (hs : s.Holds source p (vs ++ ws)) (hr : r s = .ok (a, s'))
    (hs' : s'.Holds source (p.after (textOf vs)) ws) : R vs a a := by
  obtain ⟨b, t', hb, -, hR⟩ := h hs hr hs' hs.lies.left (hs.tokens_cut hs' rfl) (.refl ..)
  rw [hr] at hb
  cases hb
  exact hR

/-- What a reader that keeps to taking words does: the words it took, the comments it holds and what
    comes of them. -/
theorem inv {R : Outcome α} {r : Reader α} (h : Replays source source p p n R r r)
    (hp : Passes source true r) {s s' : Stream} {ws : List Word} {a : α} (hs : s.Holds source p ws)
    (hr : r s = .ok (a, s')) :
    ∃ vs ws', ws = vs ++ ws' ∧ s'.Holds source (p.after (textOf vs)) ws' ∧
      s'.held = s.held ++ comments vs ∧ R vs a a := by
  obtain ⟨vs, ws', rfl, hs', hheld⟩ := hp hs hr
  exact ⟨vs, ws', rfl, hs', hheld rfl, h.self hs hr hs'⟩

theorem mono {R S : Outcome α} {r r' : Reader α} (h : Replays source source' p q m R r r')
    (hm : m ≤ n) (hRS : ∀ vs a b, R vs a b → S vs a b) :
    Replays source source' p q n S r r' := by
  intro s vs ws a s' hs hr hs' t us hq ht hahead
  obtain ⟨b, t', hb, ht', hR⟩ := h hs hr hs' hq ht (hahead.mono hm)
  exact ⟨b, t', hb, ht', hRS _ _ _ hR⟩

/-- What relates the values may use that the words lie in both sources. -/
theorem of_lies {R S : Outcome α} {r r' : Reader α} (h : Replays source source' p q n R r r')
    (hRS : ∀ vs a b, Lies source p vs → Lies source' q vs → R vs a b → S vs a b) :
    Replays source source' p q n S r r' := by
  intro s vs ws a s' hs hr hs' t us hq ht hahead
  obtain ⟨b, t', hb, ht', hR⟩ := h hs hr hs' hq ht hahead
  exact ⟨b, t', hb, ht', hRS _ _ _ hs.lies.left hq hR⟩

theorem pure {R : Outcome α} {a b : α} (h : R [] a b) :
    Replays source source' p q n R (Pure.pure a) (Pure.pure b) := by
  intro s vs ws a' s' hs hr hs' t us hq ht hahead
  cases hr
  obtain rfl : vs = [] := hs.eq_nil_of_same hs'
  exact ⟨b, t, rfl, ht, h⟩

theorem fail {R : Outcome α} {e : SchemaError} {r : Reader α} :
    Replays source source' p q n R (Reader.fail e) r := by
  intro s vs ws a s' hs hr
  cases hr

theorem refuse {R : Outcome α} {what : Expectation} {r : Reader α} :
    Replays source source' p q n R (Reader.refuse what) r := by
  intro s vs ws a s' hs hr
  exact absurd hr (refuse_ne_ok _ _ _)

/-- Two readers in a row. The first may look as far ahead as the second, and further if the second takes
    tokens. -/
theorem bind {R : Outcome α} {S : Outcome β} {r r' : Reader α} {f f' : α → Reader β}
    (hr : Replays source source' p q m R r r')
    (hm : m ≤ n ∨ ∃ k, m ≤ n + k ∧ ∀ a, Takes k (f a))
    (hpr : Passes source false r) (hpf : ∀ a, Passes source false (f a))
    (hf : ∀ vs a b, R vs a b → Replays source source' (p.after (textOf vs)) (q.after (textOf vs)) n
      (S.behind vs) (f a) (f' b)) :
    Replays source source' p q n S (r >>= f) (r' >>= f') := by
  intro s xs ws c s' hs h hs' t zs hq ht hahead
  obtain ⟨a, s₁, h1, h2⟩ := exists_of_bind h
  obtain ⟨vs, ws₁, hxs, hs₁, -⟩ := hpr hs h1
  obtain ⟨us, ws', rfl, hs'', -⟩ := hpf a hs₁ h2
  -- The words that both readers took are those that each took.
  rw [← List.append_assoc] at hxs
  obtain ⟨rfl, rfl⟩ := hs'.cut_unique hs'' hxs
  rw [List.append_assoc] at hs
  rw [placed_append, significant_append, List.append_assoc] at ht
  have hcut := hs₁.tokens_cut hs'' rfl
  have hahead₁ : Ahead m s₁.tokens
      (significant (placed (q.after (textOf vs)) us) ++ zs) := by
    rw [hcut]
    refine hahead.append (kinds_significant_placed ..) ?_
    rcases hm with hm | ⟨k, hm, hk⟩
    · omega
    · have htakes := hk a h2
      rw [Stream.size_eq_length_tokens, Stream.size_eq_length_tokens, hcut,
        List.length_append] at htakes
      omega
  obtain ⟨b, t₁, hb, ht₁, hR⟩ := hr hs h1 hs₁ hq.left ht hahead₁
  obtain ⟨d, t', hd, ht', hS⟩ := hf vs a b hR hs₁ h2 hs'' hq.right ht₁ hahead
  refine ⟨d, t', ?_, ht', hS⟩
  rw [bind_ok hb]
  exact hd

/-- Looking at the stream before reading: what is looked at must be among the tokens taken, or as near
    behind them as the reader looks anyhow. -/
theorem look {R : Outcome α} {g : Stream → γ} {f f' : γ → Reader α}
    (hg : ∀ s t : Stream, Ahead m s.tokens t.tokens → g s = g t)
    (hk : Takes k ((fun s => .ok (g s, s) : Reader γ) >>= f)) (hm : m ≤ n + k)
    (hf : ∀ x, Replays source source' p q n R (f x) (f' x)) :
    Replays source source' p q n R ((fun s => .ok (g s, s) : Reader γ) >>= f)
      ((fun s => .ok (g s, s) : Reader γ) >>= f') := by
  intro s vs ws a s' hs h hs' t us hq ht hahead
  have htakes := hk h
  have hcut := hs.tokens_cut hs' rfl
  rw [Stream.size_eq_length_tokens, Stream.size_eq_length_tokens, hcut,
    List.length_append] at htakes
  have hsame : g s = g t := by
    refine hg s t ?_
    rw [hcut, ht]
    exact hahead.append (kinds_significant_placed ..) (by omega)
  obtain ⟨b, t', hb, ht', hR⟩ := hf (g s) hs h hs' hq ht hahead
  refine ⟨b, t', ?_, ht', hR⟩
  rw [hsame] at hb
  exact hb

theorem peek? {R : Outcome α} {f f' : Option Kind → Reader α} (hk : Takes 1 (Reader.peek? >>= f))
    (hf : ∀ x, Replays source source' p q n R (f x) (f' x)) :
    Replays source source' p q n R (Reader.peek? >>= f) (Reader.peek? >>= f') := by
  refine look (g := fun s => s.kindAt? 0) (m := 1) ?_ hk (Nat.le_add_left ..) hf
  intro s t h
  rw [Stream.kindAt?_eq, Stream.kindAt?_eq]
  exact h.getElem? Nat.zero_lt_one

theorem symbolAhead {R : Outcome α} {f f' : Bool → Reader α} {i : Nat} {c : Char}
    (hk : Takes k (Reader.symbolAhead i c >>= f)) (hi : i < n + k)
    (hf : ∀ x, Replays source source' p q n R (f x) (f' x)) :
    Replays source source' p q n R (Reader.symbolAhead i c >>= f) (Reader.symbolAhead i c >>= f') := by
  refine look (g := fun s => s.symbolAt i c) (m := i + 1) ?_ hk hi hf
  intro s t h
  rw [Stream.symbolAt, Stream.symbolAt, Stream.kindAt?_eq, Stream.kindAt?_eq,
    h.getElem? (Nat.lt_succ_self i)]

/-- Readers that take no significant token. -/
theorem of_tokens {r r' : Reader α} (h : ∀ ⦃s a s'⦄, r s = .ok (a, s') → s'.tokens = s.tokens)
    (h' : ∀ t, ∃ b t', r' t = .ok (b, t') ∧ t'.tokens = t.tokens) :
    Replays source source' p q 0 (Outcome.value fun _ _ => True) r r' := by
  intro s vs ws a s' hs hr hs' t us hq ht hahead
  have hcut := hs.tokens_cut hs' rfl
  rw [h hr] at hcut
  have hcut : significant (placed p vs) = [] := List.append_left_eq_self.mp hcut.symm
  have hnone : significant (placed q vs) = [] := by
    rw [← List.map_eq_nil_iff (f := Token.kind), ← kinds_significant_placed p q vs, hcut]
    rfl
  obtain ⟨b, t', hb, ht'⟩ := h' t
  refine ⟨b, t', hb, ?_, trivial⟩
  rw [ht', ht, hnone, List.nil_append]

theorem dropHeld :
    Replays source source' p q 0 (Outcome.value fun _ _ => True) Reader.dropHeld Reader.dropHeld :=
  of_tokens (fun _ _ _ h => by cases h; rfl) fun t => ⟨_, { t with held := [] }, rfl, rfl⟩

theorem takeHeld :
    Replays source source' p q 0 (Outcome.value fun _ _ => True) Reader.takeHeld Reader.takeHeld :=
  of_tokens (fun _ _ _ h => by cases h; rfl) fun t => ⟨_, { t with held := [] }, rfl, rfl⟩

/-- A comment behind a token may be there or not. -/
theorem trailing (line line' : Nat) :
    Replays source source' p q 0 (Outcome.value fun _ _ => True) (Reader.trailing line)
      (Reader.trailing line') :=
  of_tokens (fun _ _ _ h => tokens_trailing h) (trailing_total line')

-- ── Single tokens ────────────────────────────────────────────────────────────────

/-- The next item of a stream and that of a copy. -/
theorem items_taken {s s' t : Stream} {vs ws : List Word} {i : Item} {rest : List Item}
    {us : List Token} (hs : s.Holds source p (vs ++ ws)) (hi : s.items = i :: rest)
    (hs' : s'.Holds source (p.after (textOf vs)) ws) (heq : s' = s.skipItem i rest)
    (ht : t.tokens = significant (placed q vs) ++ us) :
    ∃ j rest', t.items = j :: rest' ∧ (t.skipItem j rest').tokens = us ∧
      Outcome.taken p q vs i.token j.token := by
  obtain ⟨cs, w, ws', hws, hcs, hw, htoken, -, hs''⟩ := hs.next hi
  rw [heq] at hs'
  rw [← List.singleton_append, ← List.append_assoc] at hws
  obtain ⟨rfl, rfl⟩ := hs'.cut_unique hs'' hws
  rw [placed_append, significant_append, significant_placed_comments hcs, List.nil_append,
    placed_cons, significant_cons hw, placed_nil, significant_nil] at ht
  obtain ⟨j, rest', hj, hjt, hrest⟩ := Stream.exists_items ht
  exact ⟨j, rest', hj, hrest, cs, w, rfl, hcs, hw, htoken, hjt⟩

theorem require (what : Expectation) (form : Kind → Option α) :
    Replays source source' p q 0 (Outcome.takenWith form p q) (Reader.require what form)
      (Reader.require what form) := by
  intro s vs ws x s' hs h hs' t us hq ht hahead
  obtain ⟨i, rest, a, hi, hform, rfl, rfl⟩ := require_eq_ok_iff.mp h
  obtain ⟨j, rest', hj, hrest, htaken⟩ := items_taken hs hi hs' rfl ht
  have hform' := htaken.last.kind_eq ▸ hform
  exact ⟨(a, j.token), t.skipItem j rest', require_eq_ok_iff.mpr ⟨j, rest', a, hj, hform', rfl, rfl⟩, hrest, hform,
    rfl, htaken⟩

/-- The token alone of what was required. -/
theorem require_token (what : Expectation) (form : Kind → Option α) :
    Replays source source' p q 0 (fun vs t u => (form t.kind).isSome ∧ Outcome.taken p q vs t u)
      (Reader.require what form >>= fun x => Pure.pure x.2)
      (Reader.require what form >>= fun x => Pure.pure x.2) := by
  refine bind (require what form) (.inl (Nat.le_refl _)) (.require ..) (fun _ => .pure _) ?_
  intro vs x y hxy
  refine pure ?_
  rw [Outcome.behind, List.append_nil]
  exact ⟨by rw [hxy.1]; rfl, hxy.2.2⟩

theorem next (what : Expectation) :
    Replays source source' p q 0 (Outcome.taken p q) (Reader.next what) (Reader.next what) :=
  (require_token what some).mono (Nat.le_refl _) fun _ _ _ h => h.2

theorem symbol (c : Char) :
    Replays source source' p q 0 (Outcome.symbol c p q) (Reader.symbol c) (Reader.symbol c) :=
  (require_token (.symbol c) (symbolForm c)).mono (Nat.le_refl _) fun _ _ _ h =>
    ⟨kind_of_symbolForm (Option.eq_some_of_isSome h.1), h.2⟩

theorem name (what : Expectation) :
    Replays source source' p q 0 (Outcome.takenWith nameForm p q) (Reader.name what)
      (Reader.name what) :=
  require _ _

/-- A name and the symbol behind it, of which a value is made in which the places do not matter. -/
theorem nameThen {f : String × Token → Token → α} {rel : α → α → Prop} (what : Expectation) (c : Char)
    (hf : ∀ name t t' u u', rel (f (name, t) u) (f (name, t') u')) :
    Replays source source' p q 0 (Outcome.value rel)
      (Reader.name what >>= fun x => Reader.symbol c >>= fun u => Pure.pure (f x u))
      (Reader.name what >>= fun x => Reader.symbol c >>= fun u => Pure.pure (f x u)) := by
  refine bind (name what) (.inl (Nat.le_refl _)) (.name _) (fun _ => .bind (.symbol _) fun _ => .pure _) ?_
  rintro _ ⟨n, t⟩ ⟨_, t'⟩ ⟨-, rfl, -⟩
  refine bind (symbol c) (.inl (Nat.le_refl _)) (.symbol _) (fun _ => .pure _) ?_
  intro _ u u' _
  exact pure (hf ..)

theorem accept (form : Kind → Option α) :
    Replays source source' p q 1 (Outcome.accepted form p q) (Reader.accept form)
      (Reader.accept form) := by
  intro s vs ws found s' hs h hs' t us hq ht hahead
  cases found with
  | none =>
      obtain ⟨hform, rfl⟩ := accept_eq_none_iff.mp h
      obtain rfl := hs.eq_nil_of_same hs'
      have hsame : s'.kindAt? 0 = t.kindAt? 0 := by
        rw [Stream.kindAt?_eq, Stream.kindAt?_eq, ht]
        exact hahead.getElem? Nat.zero_lt_one
      rw [hsame] at hform
      exact ⟨none, t, accept_eq_none_iff.mpr ⟨hform, rfl⟩, ht, .inl ⟨rfl, rfl, rfl⟩⟩
  | some x =>
      obtain ⟨i, rest, a, hi, hform, rfl, rfl⟩ := accept_eq_some_iff.mp h
      obtain ⟨j, rest', hj, hrest, htaken⟩ := items_taken hs hi hs' rfl ht
      have hform' := htaken.last.kind_eq ▸ hform
      exact ⟨some (a, j.token), t.skipItem j rest', accept_eq_some_iff.mpr ⟨j, rest', a, hj, hform', rfl, rfl⟩,
        hrest, .inr ⟨_, _, rfl, rfl, hform, rfl, htaken⟩⟩

/-- A symbol that may come next is there in both, or in neither. -/
theorem acceptSymbol (c : Char) :
    Replays source source' p q 1 (Outcome.value Eq) (Reader.acceptSymbol c)
      (Reader.acceptSymbol c) := by
  refine bind (accept _) (.inl (Nat.le_refl _)) (.accept _) (fun _ => .pure _) ?_
  rintro vs x y (⟨rfl, rfl, -⟩ | ⟨a, b, rfl, rfl, -⟩)
  · exact pure rfl
  · exact pure rfl

-- ── Loops ────────────────────────────────────────────────────────────────────────

/-- A loop does on a copy what it did if each step does, for an invariant of what has been read. -/
theorem iterate {I : Outcome σ} {R : Outcome α} {step step' : σ → Reader (σ ⊕ α)}
    {hstep : Proceeds step} {hstep' : Proceeds step'} (hp : ∀ b, Passes source false (step b))
    (h : ∀ vs b c, I vs b c → Replays source source' (p.after (textOf vs)) (q.after (textOf vs)) n
      (Outcome.step (I.behind vs) (R.behind vs)) (step b) (step' c))
    {b c : σ} (hI : I [] b c) :
    Replays source source' p q n R (iterate step hstep b) (iterate step' hstep' c) := by
  suffices hall : ∀ vs b c, I vs b c → Replays source source' (p.after (textOf vs))
      (q.after (textOf vs)) n (R.behind vs) (Reader.iterate step hstep b)
      (Reader.iterate step' hstep' c) from hall [] b c hI
  clear hI b c
  intro vs b c hI s us ws a s' hs hr hs' t zs hq ht hahead
  fun_induction Reader.iterate step hstep b s generalizing vs c us t with
  | case1 => cases hr
  | case2 b s a' s₁ h1 =>
      cases hr
      obtain ⟨y, t', hy, ht', hR⟩ := h vs b c hI hs h1 hs' hq ht hahead
      rcases hR with ⟨_, _, hx, -⟩ | ⟨a, b', hx, rfl, hR⟩
      · cases hx
      · cases hx
        refine ⟨b', t', ?_, ht', hR⟩
        rw [Reader.iterate]
        split
        · next heq => rw [hy] at heq; cases heq
        · next heq => rw [hy] at heq; cases heq; rfl
        · next heq => rw [hy] at heq; cases heq
  | case3 b s b' s₁ h1 hlt ih =>
      obtain ⟨xs, ws₁, hws, hs₁, -⟩ := hp b hs h1
      obtain ⟨ys, ws', rfl, hs'', -⟩ := Passes.iterate hp b' hs₁ hr
      rw [← List.append_assoc] at hws
      obtain ⟨rfl, rfl⟩ := hs'.cut_unique hs'' hws
      rw [List.append_assoc] at hs
      rw [placed_append, significant_append, List.append_assoc] at ht
      have hahead₁ : Ahead n s₁.tokens
          (significant (placed ((q.after (textOf vs)).after (textOf xs)) ys) ++ zs) := by
        rw [hs₁.tokens_cut hs'' rfl]
        exact hahead.append (kinds_significant_placed ..) (Nat.le_add_right ..)
      obtain ⟨y, t₁, hy, ht₁, hR⟩ := h vs b c hI hs h1 hs₁ hq.left ht hahead₁
      rcases hR with ⟨b'', c', hx, rfl, hI'⟩ | ⟨_, _, hx, -⟩
      · cases hx
        have hplace : ∀ p : Place, (p.after (textOf vs)).after (textOf xs)
            = p.after (textOf (vs ++ xs)) := by
          intro p
          rw [textOf_append, Place.after_append]
        rw [hplace] at hs₁ hs'' ht₁
        have hq₁ := hq.right
        rw [hplace] at hq₁
        obtain ⟨d, t', hd, ht', hS⟩ := ih (vs ++ xs) c' hI' hs₁ hr hs'' hq₁ ht₁
        refine ⟨d, t', ?_, ht', ?_⟩
        · rw [Reader.iterate]
          split
          · next heq => rw [hy] at heq; cases heq
          · next heq => rw [hy] at heq; cases heq
          · next heq => rw [hy] at heq; cases heq; exact hd
        · rw [Outcome.behind, List.append_assoc] at hS
          exact hS
      · cases hx

end Replays

-- ── Given tokens ─────────────────────────────────────────────────────────────────

variable {t : Stream} {tok : Token} {us : List Token}

/-- A token of the form is taken. -/
theorem require_ok (what : Expectation) {form : Kind → Option α} {a : α}
    (ht : t.tokens = tok :: us) (hform : form tok.kind = some a) :
    ∃ t', require what form t = .ok ((a, tok), t') ∧ t'.tokens = us := by
  obtain ⟨i, rest, hi, rfl, hrest⟩ := Stream.exists_items ht
  exact ⟨t.skipItem i rest, require_eq_ok_iff.mpr ⟨i, rest, a, hi, hform, rfl, rfl⟩, hrest⟩

theorem next_ok (what : Expectation) (ht : t.tokens = tok :: us) :
    ∃ t', next what t = .ok (tok, t') ∧ t'.tokens = us := by
  obtain ⟨t', h, ht'⟩ := require_ok what ht (show some tok.kind = some tok.kind from rfl)
  exact ⟨t', bind_ok h, ht'⟩

theorem symbol_ok {c : Char} (ht : t.tokens = tok :: us) (hk : tok.kind = .symbol c) :
    ∃ t', symbol c t = .ok (tok, t') ∧ t'.tokens = us := by
  have hform : symbolForm c tok.kind = some () := by rw [symbolForm, if_pos hk]
  obtain ⟨t', h, ht'⟩ := require_ok (.symbol c) ht hform
  exact ⟨t', bind_ok h, ht'⟩

theorem name_ok (what : Expectation) {n : String} (ht : t.tokens = tok :: us)
    (hk : tok.kind = .ident n) : ∃ t', name what t = .ok ((n, tok), t') ∧ t'.tokens = us :=
  require_ok what ht (by rw [hk]; rfl)

theorem kindAt?_zero (ht : t.tokens = tok :: us) : t.kindAt? 0 = some tok.kind := by
  rw [Stream.kindAt?_eq, ht]
  rfl

theorem accept_ok {form : Kind → Option α} {a : α} (ht : t.tokens = tok :: us)
    (hform : form tok.kind = some a) :
    ∃ t', accept form t = .ok (some (a, tok), t') ∧ t'.tokens = us := by
  obtain ⟨i, rest, hi, rfl, hrest⟩ := Stream.exists_items ht
  exact ⟨t.skipItem i rest, accept_eq_some_iff.mpr ⟨i, rest, a, hi, hform, rfl, rfl⟩, hrest⟩

theorem acceptSymbol_ok {c : Char} (ht : t.tokens = tok :: us) (hk : tok.kind = .symbol c) :
    ∃ t', acceptSymbol c t = .ok (true, t') ∧ t'.tokens = us := by
  have hform : symbolForm c tok.kind = some () := by rw [symbolForm, if_pos hk]
  obtain ⟨t', h, ht'⟩ := accept_ok ht hform
  exact ⟨t', bind_ok h, ht'⟩

/-- A symbol that does not come next is not taken. -/
theorem acceptSymbol_none {c : Char} (ht : t.tokens = tok :: us) (hk : tok.kind ≠ .symbol c) :
    acceptSymbol c t = .ok (false, t) := by
  have hnone : accept (symbolForm c) t = .ok (none, t) := by
    refine accept_eq_none_iff.mpr ⟨?_, rfl⟩
    rw [kindAt?_zero ht, Option.bind_some, symbolForm, if_neg hk]
  exact bind_ok hnone

end Reader

end FlagSchema
