import FlagSchema.Proofs.Constants
import FlagSchema.Proofs.Recast

/-!
# Reading a text that has been recast

A reader takes words, the words are put in pieces that have an account, and another reader reads the new
words. What holds of two readers holds of both in a row.

* **`Reader.EndsIn`**: a reader ends with a word of a certain sort, **`Reader.Closes`**: with one that stays
  apart from every name behind it.
* **`Rereads`**: a reader takes certain words wherever they stand.
* **`Recasts`**: the words that were taken, recast, and what can be said of the new words.
* **`Recasts.seq`**: accounts of two readers in a row add up.
-/

namespace FlagSchema

open Token Reader Piece

variable {α β σ : Type} {source : List Char} {p : Place}

-- ── The last word ────────────────────────────────────────────────────────────────

/-- The last word, comments behind it apart, is of a certain sort. -/
def Token.EndIn (sort : Kind → Prop) (ws : List Word) : Prop :=
  ∃ us v ts, ws = us ++ v :: ts ∧ sort v.kind ∧ ∀ t ∈ ts, t.kind.isComment = true

namespace Token.EndIn

variable {sort sort' : Kind → Prop} {ws : List Word}

theorem mono (h : EndIn sort ws) (hsort : ∀ k, sort k → sort' k) : EndIn sort' ws := by
  obtain ⟨us, v, ts, hws, hv, hts⟩ := h
  exact ⟨us, v, ts, hws, hsort _ hv, hts⟩

theorem concat (us : List Word) {v : Word} (hv : sort v.kind) : EndIn sort (us ++ [v]) :=
  ⟨us, v, [], rfl, hv, nofun⟩

theorem prepend (us : List Word) (h : EndIn sort ws) : EndIn sort (us ++ ws) := by
  obtain ⟨xs, v, ts, rfl, hv, hts⟩ := h
  exact ⟨us ++ xs, v, ts, (List.append_assoc ..).symm, hv, hts⟩

theorem behind (h : EndIn sort ws) {ts : List Word} (hts : ∀ t ∈ ts, t.kind.isComment = true) :
    EndIn sort (ws ++ ts) := by
  obtain ⟨us, v, vs, rfl, hv, hvs⟩ := h
  exact ⟨us, v, vs ++ ts, List.append_assoc .., hv, List.forall_mem_append.mpr ⟨hvs, hts⟩⟩

end Token.EndIn

/-- The last word, comments behind it apart, stays apart from names. -/
def Token.Parted (ws : List Word) : Prop :=
  ∃ us v ts, ws = us ++ v :: ts ∧ v.kind.Parts ∧ ∀ t ∈ ts, t.kind.isComment = true

namespace Token.Parted

variable {ws : List Word}

theorem apart (h : Parted ws) : Apart ws := by
  obtain ⟨us, v, ts, rfl, hv, hts⟩ := h
  have happ : us ++ v :: ts = us ++ [v] ++ ts := by simp
  rw [happ]
  exact (Apart.concat us hv).append (.of_comments hts)

end Token.Parted

theorem Token.Kind.Parts.ident (name : String) : (Kind.ident name).Parts := .inl ⟨name, rfl⟩

/-- Whenever a reader gives a certain result, the words that it took end with one of a certain sort. -/
def Reader.EndsIn (source : List Char) (sort : Kind → Prop) (done : α → Prop) (r : Reader α) : Prop :=
  ∀ ⦃s p ws a s'⦄, s.Holds source p ws → r s = .ok (a, s') → done a →
    ∃ vs ws', ws = vs ++ ws' ∧ s'.Holds source (p.after (textOf vs)) ws' ∧ EndIn sort vs

namespace Reader.EndsIn

variable {sort sort' : Kind → Prop} {done : β → Prop}

theorem mono {r : Reader β} (h : EndsIn source sort done r) (hsort : ∀ k, sort k → sort' k) :
    EndsIn source sort' done r := by
  intro s p ws a s' hs hr ha
  obtain ⟨vs, ws', hws, hs', hvs⟩ := h hs hr ha
  exact ⟨vs, ws', hws, hs', hvs.mono hsort⟩

theorem require (what : Expectation) {form : Kind → Option α} {done : α × Token → Prop}
    (h : ∀ k a, form k = some a → sort k) : EndsIn source sort done (Reader.require what form) := by
  intro s p ws x s' hs hr _
  obtain ⟨cs, w, ws', rfl, -, -, hform, -, -, hs'⟩ := require_inv hs hr
  exact ⟨cs ++ [w], ws', by simp, hs', .concat cs (h _ _ hform)⟩

/-- A token that is looked at, before or afterwards. -/
theorem next (what : Expectation) {done : Token → Prop} (h : ∀ t, done t → sort t.kind) :
    EndsIn source sort done (Reader.next what) := by
  intro s p ws t s' hs hr ht
  obtain ⟨⟨_, _⟩, s₁, h1, h2⟩ := exists_of_bind hr
  cases h2
  obtain ⟨cs, w, ws', rfl, -, -, -, htoken, -, hs'⟩ := require_inv hs h1
  have hw := h t ht
  rw [show t = w.token (p.after (textOf cs)) from htoken, Word.token_kind] at hw
  exact ⟨cs ++ [w], ws', by simp, hs', .concat cs hw⟩

theorem refuse (what : Expectation) {done : α → Prop} :
    EndsIn source sort done (Reader.refuse what : Reader α) :=
  fun _ _ _ _ _ _ h => absurd h (refuse_ne_ok _ _ _)

/-- Nothing is said of other results. -/
theorem pure {b : β} (h : ¬ done b) : EndsIn source sort done (Pure.pure b) := by
  intro s p ws c s' hs hr hc
  cases hr
  exact absurd hc h

/-- The second of two readers ends. -/
theorem bind_right {r : Reader α} {f : α → Reader β} (hr : Passes source false r)
    (hf : ∀ a, EndsIn source sort done (f a)) : EndsIn source sort done (r >>= f) := by
  intro s p ws b s' hs h hb
  obtain ⟨a, s₁, h1, h2⟩ := exists_of_bind h
  obtain ⟨vs, ws₁, rfl, hs₁, -⟩ := hr hs h1
  obtain ⟨us, ws', rfl, hs', hus⟩ := hf a hs₁ h2 hb
  refine ⟨vs ++ us, ws', (List.append_assoc ..).symm, ?_, hus.prepend vs⟩
  rw [textOf_append, Place.after_append]
  exact hs'

/-- A reader whose result is only rewritten. -/
theorem bind_pure {r : Reader α} {g : α → β} (hr : EndsIn source sort (fun a => done (g a)) r) :
    EndsIn source sort done (r >>= fun a => Pure.pure (g a)) := by
  intro s p ws b s' hs h hb
  obtain ⟨a, s₁, h1, h2⟩ := exists_of_bind h
  cases h2
  exact hr hs h1 hb

theorem symbol (c : Char) {done : Token → Prop} :
    EndsIn source (· = .symbol c) done (Reader.symbol c) :=
  bind_pure (require _ fun _ _ hk => kind_of_symbolForm hk)

/-- A loop ends as its last step does. -/
theorem iterate {done : α → Prop} {step : σ → Reader (σ ⊕ α)} {hstep : Proceeds step}
    (hp : ∀ b, Passes source false (step b))
    (h : ∀ b, EndsIn source sort (fun x => ∃ a, x = .inr a) (step b)) (b : σ) :
    EndsIn source sort done (Reader.iterate step hstep b : Reader α) := by
  intro s p ws a s' hs hr hd
  fun_induction Reader.iterate step hstep b s generalizing p ws with
  | case1 => cases hr
  | case2 b s a' s₁ h1 =>
      cases hr
      exact h b hs h1 ⟨a, rfl⟩
  | case3 b s b' s₁ h1 hlt ih =>
      obtain ⟨vs, ws₁, rfl, hs₁, -⟩ := hp b hs h1
      obtain ⟨us, ws', rfl, hs', hus⟩ := ih hs₁ hr
      refine ⟨vs ++ us, ws', (List.append_assoc ..).symm, ?_, hus.prepend vs⟩
      rw [textOf_append, Place.after_append]
      exact hs'

/-- The next token is of the kind that was looked at. -/
theorem next_of_kind {what : Expectation} {k : Kind} {s s' : Stream} {t : Token} {ws : List Word}
    (hkind : s.kindAt? 0 = some k) (hs : s.Holds source p ws) (h : Reader.next what s = .ok (t, s')) :
    ∃ vs ws', ws = vs ++ ws' ∧ s'.Holds source (p.after (textOf vs)) ws' ∧ EndIn (· = k) vs := by
  have hk : t.kind = k := by
    obtain ⟨⟨_, _⟩, s₁, h1, h2⟩ := exists_of_bind h
    cases h2
    rw [(kind_of_require h1).1, Option.some.injEq] at hkind
    exact hkind
  have hends : EndsIn source (· = k) (fun t => t.kind = k) (Reader.next what) := next what fun _ ht => ht
  exact hends hs h hk

end Reader.EndsIn

theorem ends_skipPast (c : Char) {done : Token → Prop} : EndsIn source (· = .symbol c) done (skipPast c) := by
  refine .iterate (passes_skipStep c) (fun u => .bind_pure (.next _ ?_)) ()
  rintro t ⟨a, ht⟩
  split at ht
  · next hk => exact hk
  · cases ht

theorem ends_skipBraces {done : Token → Prop} : EndsIn source (· = .symbol '\x7d') done skipBraces := by
  refine .iterate passes_braceStep (fun depth => .bind_pure (.next _ ?_)) 0
  rintro t ⟨a, ht⟩
  split at ht
  · cases ht
  · split at ht
    · next hk => exact hk
    · cases ht

theorem ends_skipBlock {done : Unit → Prop} : EndsIn source (· = .symbol '\x7d') done skipBlock :=
  .bind_right (passes_skipPast _) fun _ => .bind_pure ends_skipBraces

/-- Whenever a reader gives a certain result, the words that it took end with one that stays apart from
    names. -/
def Reader.Closes (source : List Char) (done : α → Prop) (r : Reader α) : Prop :=
  ∀ ⦃s p ws a s'⦄, s.Holds source p ws → r s = .ok (a, s') → done a →
    ∃ vs ws', ws = vs ++ ws' ∧ s'.Holds source (p.after (textOf vs)) ws' ∧ Parted vs

/-- A symbol closes, unless it is a dot or a slash. -/
theorem Reader.EndsIn.closes {c : Char} {done : α → Prop} {r : Reader α}
    (h : EndsIn source (· = .symbol c) done r) (hdot : c ≠ '.') (hslash : c ≠ '/') : Closes source done r :=
  h.mono fun _ hk => .inr ⟨c, hk, hdot, hslash⟩

namespace Reader.Closes

variable {done : β → Prop}

/-- A token that is looked at afterwards. -/
theorem next (what : Expectation) {done : Token → Prop} (h : ∀ t, done t → t.kind.Parts) :
    Closes source done (Reader.next what) :=
  EndsIn.next what h

/-- The second of two readers closes. -/
theorem bind_right {r : Reader α} {f : α → Reader β} (hr : Passes source false r)
    (hf : ∀ a, Closes source done (f a)) : Closes source done (r >>= f) :=
  EndsIn.bind_right hr hf

/-- A reader whose result is only rewritten. -/
theorem bind_pure {r : Reader α} {g : α → β} (hr : Closes source (fun a => done (g a)) r) :
    Closes source done (r >>= fun a => Pure.pure (g a)) :=
  EndsIn.bind_pure hr

theorem symbol {c : Char} (hdot : c ≠ '.') (hslash : c ≠ '/') {done : Token → Prop} :
    Closes source done (Reader.symbol c) :=
  (EndsIn.symbol c).closes hdot hslash

end Reader.Closes

theorem closes_skipPast {c : Char} (hdot : c ≠ '.') (hslash : c ≠ '/') {done : Token → Prop} :
    Closes source done (skipPast c) :=
  (ends_skipPast c).closes hdot hslash

theorem closes_skipBlock {done : Unit → Prop} : Closes source done skipBlock :=
  ends_skipBlock.closes (by decide) (by decide)

-- ── Reading new words ────────────────────────────────────────────────────────────

/-- A reader takes certain words wherever they stand in a source, and gives a certain result. -/
def Rereads (source : List Char) (r : Reader α) (W : List Word) (P : α → Prop) : Prop :=
  ∀ ⦃q t us⦄, Lies source q W → t.tokens = significant (placed q W) ++ us →
    ∃ a t', r t = .ok (a, t') ∧ t'.tokens = us ∧ P a

/-- A reader reads certain words to the end of a source, and gives a certain result. -/
def RereadsAll (source : List Char) (r : Reader α) (W : List Word) (P : α → Prop) : Prop :=
  ∀ ⦃q t⦄, Lies source q W → t.tokens = significant (placed q W) → ∃ a t', r t = .ok (a, t') ∧ P a

namespace Rereads

variable {W V : List Word} {r : Reader α} {P : α → Prop} {Q : β → Prop}

theorem mono {P' : α → Prop} (h : Rereads source r W P) (hP : ∀ a, P a → P' a) : Rereads source r W P' := by
  intro q t us hq ht
  obtain ⟨a, t', hr, ht', ha⟩ := h hq ht
  exact ⟨a, t', hr, ht', hP a ha⟩

theorem bind {f : α → Reader β} (h : Rereads source r W P) (hf : ∀ a, P a → Rereads source (f a) V Q) :
    Rereads source (r >>= f) (W ++ V) Q := by
  intro q t us hq ht
  rw [placed_append, significant_append, List.append_assoc] at ht
  obtain ⟨a, t₁, hr, ht₁, ha⟩ := h hq.left ht
  obtain ⟨b, t', hb, ht', hQ⟩ := hf a ha hq.right ht₁
  exact ⟨b, t', (bind_ok hr).trans hb, ht', hQ⟩

/-- A reader whose result is only rewritten. -/
theorem map {g : α → β} (h : Rereads source r W P) (hg : ∀ a, P a → Q (g a)) :
    Rereads source (r >>= fun a => pure (g a)) W Q := by
  intro q t us hq ht
  obtain ⟨a, t', hr, ht', ha⟩ := h hq ht
  exact ⟨g a, t', bind_ok hr, ht', hg a ha⟩

/-- Comments that are held do not matter. -/
theorem dropHeld {f : Unit → Reader α} (h : Rereads source (f ()) W P) :
    Rereads source (Reader.dropHeld >>= f) W P := by
  intro q t us hq ht
  obtain ⟨a, t', hr, ht', ha⟩ := h hq (t := { t with held := [] }) ht
  exact ⟨a, t', (bind_ok (show Reader.dropHeld t = .ok ((), { t with held := [] }) from rfl)).trans hr,
    ht', ha⟩

end Rereads

/-- A reader does on new words what another did on them. -/
theorem Reader.Replays.rereads {R : Outcome α} {source' : List Char} {r r' : Reader α}
    (h : ∀ q, Replays source source' p q 0 R r r') {s s' : Stream} {vs ws : List Word} {a : α}
    (hs : s.Holds source p (vs ++ ws)) (hr : r s = .ok (a, s'))
    (hs' : s'.Holds source (p.after (textOf vs)) ws) : Rereads source' r' vs (R vs a) := by
  intro q t us hq ht
  exact h q hs hr hs' hq ht (.zero ..)

-- ── Recasting what was read ──────────────────────────────────────────────────────

/-- The words in front of a stream that is left are in pieces that have an account, and something can be
    said of the new words. -/
def Recasts (source : List Char) (p : Place) (ws : List Word) (s' : Stream) (c : Change)
    (again : List Word → Prop) : Prop :=
  ∃ ps ws', ws = olds ps ++ ws' ∧ s'.Holds source (p.after (textOf (olds ps))) ws' ∧ Recast p ps c ∧
    again (news ps)

namespace Recasts

variable {ws : List Word} {s s' : Stream} {c d : Change} {again again' : List Word → Prop}

theorem mono (h : Recasts source p ws s' c again) (hmono : ∀ W, again W → again' W) :
    Recasts source p ws s' c again' := by
  obtain ⟨ps, ws', hws, hs', hps, hagain⟩ := h
  exact ⟨ps, ws', hws, hs', hps, hmono _ hagain⟩

/-- Words that stay. -/
theorem keep {vs ws' : List Word} (hws : ws = vs ++ ws') (hs' : s'.Holds source (p.after (textOf vs)) ws')
    (hvs : Apart vs) (h : again vs) : Recasts source p ws s' 0 again := by
  refine ⟨[.keep vs], ws', ?_, ?_, .keep p hvs, ?_⟩
  · simpa [old] using hws
  · simpa [old] using hs'
  · simpa [new] using h

/-- **Accounts of two readers in a row add up.** The account of the second may depend on where its words
    stand, as far as `R` leaves it open. -/
theorem seq_exists {s₁ : Stream} {R : Change → Prop} (h : Recasts source p ws s₁ c again)
    (h' : ∀ p ws, s₁.Holds source p ws → ∃ d, R d ∧ Recasts source p ws s' d again') :
    ∃ d, R d ∧ Recasts source p ws s' (c + d) fun W => ∃ W₁ W₂, W = W₁ ++ W₂ ∧ again W₁ ∧ again' W₂ := by
  obtain ⟨ps, ws₁, rfl, hs₁, hps, hagain⟩ := h
  obtain ⟨d, hd, qs, ws', rfl, hs', hqs, hagain'⟩ := h' _ _ hs₁
  refine ⟨d, hd, ps ++ qs, ws', ?_, ?_, hps.append hqs, news ps, news qs, news_append .., hagain, hagain'⟩
  · rw [olds_append, List.append_assoc]
  · rw [olds_append, textOf_append, Place.after_append]
    exact hs'

theorem seq {s₁ : Stream} (h : Recasts source p ws s₁ c again)
    (h' : ∀ p ws, s₁.Holds source p ws → Recasts source p ws s' d again') :
    Recasts source p ws s' (c + d) fun W => ∃ W₁ W₂, W = W₁ ++ W₂ ∧ again W₁ ∧ again' W₂ := by
  obtain ⟨_, rfl, hseq⟩ := h.seq_exists fun p ws hs₁ => ⟨d, rfl, h' p ws hs₁⟩
  exact hseq

end Recasts

-- ── Words with a known first token ───────────────────────────────────────────────

/-- The first significant word is of a certain kind. -/
def Token.Starts (k : Kind) (W : List Word) : Prop :=
  ∃ cs w us, W = cs ++ w :: us ∧ (∀ c ∈ cs, c.kind.isComment = true) ∧ w.kind = k

namespace Token.Starts

variable {k : Kind} {W V : List Word}

theorem append (h : Starts k W) (V : List Word) : Starts k (W ++ V) := by
  obtain ⟨cs, w, us, rfl, hcs, hw⟩ := h
  exact ⟨cs, w, us ++ V, by simp, hcs, hw⟩

/-- The next token is of that kind where the words stand. -/
theorem kindAt? (h : Starts k W) (hk : k.isComment = false) {q : Place} {t : Stream} {us : List Token}
    (ht : t.tokens = significant (placed q W) ++ us) : t.kindAt? 0 = some k := by
  obtain ⟨cs, w, vs, rfl, hcs, rfl⟩ := h
  rw [significant_placed_cons hcs hk, List.cons_append] at ht
  exact kindAt?_zero ht

/-- Words from which a token was taken start with the token that was in front. -/
theorem of_takes {s s' : Stream} {ws : List Word} (hs : s.Holds source p (W ++ ws))
    (hs' : s'.Holds source (p.after (textOf W)) ws) (hsize : s'.size < s.size)
    (hkind : s.kindAt? 0 = some k) : Starts k W := by
  obtain ⟨cs, w, us, rfl, hcs, hw⟩ := exists_first (hs.significant_ne_nil hs' rfl hsize)
  rw [List.append_assoc, List.cons_append] at hs
  rw [hs.kindAt?_zero hcs hw, Option.some.injEq] at hkind
  exact ⟨cs, w, us, rfl, hcs, hkind⟩

end Token.Starts

/-- A reader that looks at the next token before it takes words with a known first one. -/
theorem Rereads.peek? {W : List Word} {P : α → Prop} {k : Kind} {f : Option Kind → Reader α}
    (hW : Starts k W) (hk : k.isComment = false) (h : Rereads source (f (some k)) W P) :
    Rereads source (Reader.peek? >>= f) W P := by
  intro q t us hq ht
  obtain ⟨a, t', hr, ht', ha⟩ := h hq ht
  have hpeek : Reader.peek? t = .ok (some k, t) := by
    rw [← hW.kindAt? hk ht]
    rfl
  exact ⟨a, t', (bind_ok hpeek).trans hr, ht', ha⟩

namespace Recasts

variable {ws : List Word} {s s' : Stream} {k : Kind}

/-- A reader that does the same again. -/
theorem of_closes {r : Reader α} {r' : List Char → Reader α} {rel : α → α → Prop} {a : α}
    (hc : Closes source (fun _ => True) r)
    (hr : ∀ source' q, Replays source source' p q 0 (Outcome.value rel) r (r' source'))
    (hs : s.Holds source p ws) (h : r s = .ok (a, s')) :
    Recasts source p ws s' 0 fun W => ∀ source', Rereads source' (r' source') W (rel a) := by
  obtain ⟨vs, ws', rfl, hs', hvs⟩ := hc hs h trivial
  exact .keep rfl hs' hvs.apart fun source' => Replays.rereads (hr source') hs h hs'

/-- A reader that does the same again, from the same first word on. -/
theorem of_closes_from {r : Reader α} {r' : List Char → Reader α} {rel : α → α → Prop} {a : α}
    (hkind : s.kindAt? 0 = some k) (htakes : Takes 1 r) (hc : Closes source (fun _ => True) r)
    (hr : ∀ source' q, Replays source source' p q 0 (Outcome.value rel) r (r' source'))
    (hs : s.Holds source p ws) (h : r s = .ok (a, s')) :
    Recasts source p ws s' 0 fun W => Starts k W ∧ ∀ source', Rereads source' (r' source') W (rel a) := by
  obtain ⟨vs, ws', rfl, hs', hvs⟩ := hc hs h trivial
  exact .keep rfl hs' hvs.apart
    ⟨.of_takes hs hs' (htakes h) hkind, fun source' => Replays.rereads (hr source') hs h hs'⟩

/-- A token that stays apart from names stays. -/
theorem next {what : Expectation} {t : Token} (hkind : s.kindAt? 0 = some k) (hk : k.Parts)
    (hs : s.Holds source p ws) (h : Reader.next what s = .ok (t, s')) :
    Recasts source p ws s' 0 fun W => Starts k W ∧
      ∀ source', Rereads source' (Reader.next what) W fun _ => True := by
  obtain ⟨vs, ws', rfl, hs', hvs⟩ := EndsIn.next_of_kind hkind hs h
  have hparted : Parted vs := hvs.mono fun _ hkind => hkind ▸ hk
  refine .keep rfl hs' hparted.apart ⟨.of_takes hs hs' (Takes.next what h) hkind, fun source' => ?_⟩
  have hnext : ∀ q, Replays source source' p q 0 (Outcome.taken p q) (Reader.next what)
      (Reader.next what) := fun q => Replays.next what
  intro q t us hq ht
  obtain ⟨u, t', hu, ht', -⟩ := hnext q hs h hs' hq ht (.zero ..)
  exact ⟨u, t', hu, ht', trivial⟩

/-- What is behind a token that stays apart from names and stays. -/
theorem behind_next {what : Expectation} {s₁ : Stream} {t : Token} {f' : List Char → Token → Reader α}
    {c : Change} {P : α → Prop} (hkind : s.kindAt? 0 = some k) (hk : k.Parts) (hs : s.Holds source p ws)
    (h : Reader.next what s = .ok (t, s₁))
    (hf : ∀ p ws, s₁.Holds source p ws →
      Recasts source p ws s' c fun W => ∀ source' t', Rereads source' (f' source' t') W P) :
    Recasts source p ws s' c fun W => Starts k W ∧
      ∀ source', Rereads source' (Reader.next what >>= f' source') W P := by
  rw [← zero_add c]
  refine ((next hkind hk hs h).seq hf).mono ?_
  rintro _ ⟨W₁, W₂, rfl, ⟨hstarts, hW₁⟩, hW₂⟩
  exact ⟨hstarts.append W₂, fun source' => (hW₁ source').bind fun t' _ => hW₂ source' t'⟩

/-- What is made of the words behind a token that stays apart from names, by a reader that does the same again. It has
    nothing to account for. -/
theorem behind_closes {what : Expectation} {r : Reader α} {rel : α → α → Prop} {f : α → β} {b : β}
    {account : β → Change} {P : β → β → Prop} (hkind : s.kindAt? 0 = some k) (hk : k.Parts)
    (hc : Closes source (fun _ => True) r) (hr : ∀ p source' q, Replays source source' p q 0 (Outcome.value rel) r r)
    (hs : s.Holds source p ws) (h : (Reader.next what >>= fun _ => r >>= fun a => pure (f a)) s = .ok (b, s'))
    (haccount : ∀ a, account (f a) = 0) (hP : ∀ a a', rel a a' → P (f a) (f a')) :
    Recasts source p ws s' (account b) fun W => Starts k W ∧
      ∀ source', Rereads source' (Reader.next what >>= fun _ => r >>= fun a => pure (f a)) W (P b) := by
  obtain ⟨t, s₁, h1, h⟩ := exists_of_bind h
  obtain ⟨a, s₂, h2, h3⟩ := exists_of_bind h
  cases h3
  rw [haccount]
  refine .behind_next hkind hk hs h1 fun p ws hs₁ => ?_
  refine (of_closes hc (hr p) hs₁ h2).mono fun W hW source' _ => ?_
  exact (hW source').map fun a' ha' => hP a a' ha'

/-- **A loop has the accounts of its steps**, if a step has one and what has been read gains it. -/
theorem iterate {step : σ → Reader (σ ⊕ α)} {step' : List Char → σ → Reader (σ ⊕ α)}
    {hstep : Proceeds step} {account : σ → Change} {final : α → Change} {same : σ → σ → Prop} {done : α → α → Prop}
    (h : ∀ {p ws b s x s'}, s.Holds source p ws → step b s = .ok (x, s') →
      ∃ c, Sum.elim account final x = account b + c ∧ Recasts source p ws s' c fun W =>
        ∀ source' b', same b b' → Rereads source' (step' source' b') W (Sum.LiftRel same done x))
    {b : σ} {a : α} (hs : s.Holds source p ws) (hr : Reader.iterate step hstep b s = .ok (a, s')) :
    ∃ c, final a = account b + c ∧ Recasts source p ws s' c fun W =>
      ∀ source' (hstep' : Proceeds (step' source')) b', same b b' →
        Rereads source' (Reader.iterate (step' source') hstep' b') W (done a) := by
  fun_induction Reader.iterate step hstep b s generalizing p ws with
  | case1 => cases hr
  | case2 b s a' s₁ h1 =>
      cases hr
      obtain ⟨c, hc, hrecasts⟩ := h hs h1
      refine ⟨c, hc, hrecasts.mono fun W hW source' hstep' b' hb => ?_⟩
      intro q t us hq ht
      obtain ⟨y, t', hy, ht', hrel⟩ := hW source' b' hb hq ht
      cases hrel with
      | inr hdone =>
          rw [iterate_eq]
          exact ⟨_, t', bind_ok hy, ht', hdone⟩
  | case3 b s b₁ s₁ h1 hlt ih =>
      obtain ⟨c, hc, hrecasts⟩ := h hs h1
      obtain ⟨d, hd, hrest⟩ := hrecasts.seq_exists fun p ws hs₁ => ih hs₁ hr
      refine ⟨c + d, ?_, hrest.mono ?_⟩
      · rw [hd, ← add_assoc]
        exact congrArg (· + d) hc
      · rintro _ ⟨W₁, W₂, rfl, hW₁, hW₂⟩ source' hstep' b' hb
        rw [iterate_eq]
        refine (hW₁ source' b' hb).bind fun y hy => ?_
        cases hy with
        | inl hsame => exact hW₂ source' hstep' _ hsame

end Recasts

end FlagSchema
