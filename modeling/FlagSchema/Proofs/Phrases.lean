import FlagSchema.Proofs.Settings

/-!
# Phrases

A reader takes tokens from the front of a stream. Which tokens stand for what it gives is said without the
reader, by a relation for each kind of phrase: the name of an option, its value, the option itself, a list of
them in brackets.

* **`Reader.Parses`**: the tokens that a reader takes stand for what it gives, with a rule for each way in which
  readers are put together.
* **`Setting.NamePhrase`**, **`Constant.Phrase`**: the name of an option and its value.
* **`Token.Covers`**: a span reaches from the first of some tokens to the last.
* **`Setting.StatementPhrase`**, **`Setting.EntryPhrase`**, **`Setting.ListPhrase`**: options with their spans.
-/

namespace FlagSchema

open Token Reader

variable {α β σ : Type} {front : List Token → Prop} {us vs ts : List Token} {t : Token} {source : List Char}

-- ── What readers take ────────────────────────────────────────────────────────────

/-- Whatever tokens there are. -/
def anything (_ : List Token) : Prop := True

/-- Tokens of which the first is of a kind. -/
def Token.Begins (kind : Kind) (ts : List Token) : Prop := ts.head?.map Token.kind = some kind

/-- From a stream with such tokens, a reader takes some from the front that stand for what it gives. -/
def Reader.Parses (front : List Token → Prop) (r : Reader α) (P : List Token → α → Prop) : Prop :=
  ∀ ⦃s a s'⦄, front s.tokens → r s = .ok (a, s') → ∃ us, s.tokens = us ++ s'.tokens ∧ P us a

namespace Reader.Parses

variable {r : Reader α} {P Q : List Token → α → Prop} {f : α → Reader β} {R : List Token → β → Prop}

theorem mono (h : Parses front r P) (hPQ : ∀ us a, P us a → Q us a) : Parses front r Q := by
  intro s a s' hs hr
  obtain ⟨us, htokens, ha⟩ := h hs hr
  exact ⟨us, htokens, hPQ us a ha⟩

/-- What is known of the stream is known of the tokens that are taken, and of those behind them. -/
theorem fronted (h : Parses anything r P) :
    Parses front r fun us a => P us a ∧ ∃ rest, front (us ++ rest) := by
  intro s a s' hs hr
  obtain ⟨us, htokens, ha⟩ := h trivial hr
  exact ⟨us, htokens, ha, s'.tokens, htokens ▸ hs⟩

/-- More may be known of the stream. -/
theorem weaken (h : Parses anything r P) : Parses front r P :=
  fun _ _ _ _ hr => h trivial hr

theorem pure {a : α} (h : P [] a) : Parses front (Pure.pure a) P := by
  intro s b s' _ hr
  cases hr
  exact ⟨[], rfl, h⟩

theorem fail (e : SchemaError) : Parses front (Reader.fail e) P := by
  intro s a s' _ hr
  cases hr

theorem refuse (what : Expectation) : Parses front (Reader.refuse what) P :=
  fun _ _ _ _ hr => absurd hr (refuse_ne_ok _ _ _)

/-- The tokens of one reader stand in front of those of the next. -/
theorem bind (hr : Parses front r P)
    (hf : ∀ us a, P us a → Parses anything (f a) fun vs b => R (us ++ vs) b) :
    Parses front (r >>= f) R := by
  intro s b s' hs h
  obtain ⟨a, s₁, h1, h2⟩ := exists_of_bind h
  obtain ⟨us, htokens, ha⟩ := hr hs h1
  obtain ⟨vs, htokens₁, hb⟩ := hf us a ha trivial h2
  exact ⟨us ++ vs, by rw [htokens, htokens₁, List.append_assoc], hb⟩

/-- What is made of what a reader gives. -/
theorem map {g : α → β} (hr : Parses front r P) (h : ∀ us a, P us a → R us (g a)) :
    Parses front (r >>= fun a => Pure.pure (g a)) R := by
  refine hr.bind fun us a ha => .pure ?_
  rw [List.append_nil]
  exact h us a ha

/-- A reader that looks takes nothing. -/
theorem look {C : List Token → α → Prop}
    (hr : ∀ ⦃s a s'⦄, r s = .ok (a, s') → s'.tokens = s.tokens ∧ C s.tokens a)
    (hf : ∀ a, Parses (fun ts => front ts ∧ C ts a) (f a) R) : Parses front (r >>= f) R := by
  intro s b s' hs h
  obtain ⟨a, s₁, h1, h2⟩ := exists_of_bind h
  obtain ⟨htokens, ha⟩ := hr h1
  rw [← htokens] at hs ha ⊢
  exact hf a ⟨hs, ha⟩ h2

/-- A reader that looks, where it does not matter what it sees. -/
theorem still (hr : ∀ ⦃s a s'⦄, r s = .ok (a, s') → s'.tokens = s.tokens) (hf : ∀ a, Parses front (f a) R) :
    Parses front (r >>= f) R := by
  intro s b s' hs h
  obtain ⟨a, s₁, h1, h2⟩ := exists_of_bind h
  rw [← hr h1] at hs ⊢
  exact hf a hs h2

theorem peek? {f : Option Kind → Reader β}
    (hf : ∀ kind, Parses (fun ts => ts.head?.map Token.kind = kind) (f kind) R) :
    Parses anything (Reader.peek? >>= f) R := by
  refine .look (C := fun ts kind => ts.head?.map Token.kind = kind) (fun s kind s' h => ?_)
    fun kind _ _ _ hs => hf kind hs.2
  obtain ⟨rfl, hkind⟩ := eq_of_peek? h
  refine ⟨rfl, ?_⟩
  rw [← hkind, Stream.kindAt?_eq, List.head?_eq_getElem?]

theorem symbolAhead {f : Bool → Reader β} (n : Nat) (c : Char) (hf : ∀ found, Parses front (f found) R) :
    Parses front (Reader.symbolAhead n c >>= f) R :=
  .still (fun _ _ _ h => by cases h; rfl) hf

theorem dropHeld {f : Unit → Reader β} (hf : ∀ u, Parses front (f u) R) :
    Parses front (Reader.dropHeld >>= f) R :=
  .still (fun _ _ _ h => by cases h; rfl) hf

theorem takeHeld {f : List String → Reader β} (hf : ∀ held, Parses front (f held) R) :
    Parses front (Reader.takeHeld >>= f) R :=
  .still (fun _ _ _ h => by cases h; rfl) hf

theorem trailing {f : Option String → Reader β} (line : Nat) (hf : ∀ c, Parses front (f c) R) :
    Parses front (Reader.trailing line >>= f) R :=
  .still (fun _ _ _ h => tokens_trailing h) hf

-- ── Single tokens ────────────────────────────────────────────────────────────────

theorem require (what : Expectation) (form : Kind → Option α) :
    Parses anything (Reader.require what form) fun us x => us = [x.2] ∧ form x.2.kind = some x.1 := by
  intro s x s' _ h
  obtain ⟨i, rest, a, hi, hform, rfl, rfl⟩ := require_eq_ok_iff.mp h
  exact ⟨[i.token], by rw [Stream.tokens, hi]; rfl, rfl, hform⟩

theorem next (what : Expectation) : Parses anything (Reader.next what) fun us t => us = [t] := by
  refine (require what some).bind ?_
  rintro _ x ⟨rfl, -⟩
  exact .pure rfl

/-- A token that has been seen. -/
theorem next_of_begins {kind : Kind} (what : Expectation) :
    Parses (Begins kind) (Reader.next what) fun us t => us = [t] ∧ t.kind = kind := by
  refine (next what).fronted.mono ?_
  rintro _ t ⟨rfl, rest, hkind⟩
  exact ⟨rfl, Option.some.inj hkind⟩

theorem symbol (c : Char) :
    Parses anything (Reader.symbol c) fun us t => us = [t] ∧ t.kind = .symbol c := by
  refine (require _ _).bind ?_
  rintro _ x ⟨rfl, hform⟩
  exact .pure ⟨rfl, kind_of_symbolForm hform⟩

theorem name (what : Expectation) :
    Parses anything (Reader.name what) fun us x => us = [x.2] ∧ x.2.kind = .ident x.1 := by
  intro s x s' hs h
  obtain ⟨us, htokens, rfl, -⟩ := require what nameForm hs h
  exact ⟨_, htokens, rfl, (kind_of_name h).2⟩

/-- The token is taken if it has the form. -/
theorem accept (form : Kind → Option α) :
    Parses anything (Reader.accept form) fun us found =>
      us = (found.map Prod.snd).toList ∧ ∀ x ∈ found, form x.2.kind = some x.1 := by
  intro s found s' _ h
  cases found with
  | none => exact ⟨[], by rw [(accept_eq_none_iff.mp h).2]; rfl, rfl, nofun⟩
  | some x =>
      obtain ⟨i, rest, a, hi, hform, rfl, rfl⟩ := accept_eq_some_iff.mp h
      refine ⟨[i.token], by rw [Stream.tokens, hi]; rfl, rfl, ?_⟩
      rintro _ ⟨⟩
      exact hform

/-- The symbol is taken if it is there. -/
theorem acceptSymbol (c : Char) :
    Parses anything (Reader.acceptSymbol c) fun us found =>
      (found = true ∧ ∃ t, us = [t] ∧ t.kind = .symbol c) ∨ (found = false ∧ us = []) := by
  refine (accept _).bind ?_
  rintro _ (_ | x) ⟨rfl, hform⟩
  · exact .pure (.inr ⟨rfl, rfl⟩)
  · exact .pure (.inl ⟨rfl, x.2, rfl, kind_of_symbolForm (hform x rfl)⟩)

-- ── Loops ────────────────────────────────────────────────────────────────────────

/-- A loop keeps what each of its steps keeps, for the tokens taken so far. -/
theorem iterate {step : σ → Reader (σ ⊕ α)} {hstep : Proceeds step} {I : List Token → σ → Prop}
    (us : List Token)
    (h : ∀ us b, I us b → Parses anything (step b) fun vs => Sum.elim (I (us ++ vs)) (P (us ++ vs)))
    {b : σ} (hb : I us b) : Parses anything (Reader.iterate step hstep b) fun vs => P (us ++ vs) := by
  intro s a s' hs hr
  fun_induction Reader.iterate step hstep b s generalizing us with
  | case1 => cases hr
  | case2 b s a' s₁ h1 =>
      cases hr
      exact h us b hb hs h1
  | case3 b s b' s₁ h1 hlt ih =>
      obtain ⟨vs, htokens, hb'⟩ := h us b hb hs h1
      obtain ⟨ws, htokens₁, ha⟩ := ih _ hb' trivial hr
      refine ⟨vs ++ ws, by rw [htokens, htokens₁, List.append_assoc], ?_⟩
      show P (us ++ (vs ++ ws)) a
      rw [← List.append_assoc]
      exact ha

/-- Nothing need be said of the tokens that a loop takes. -/
theorem iterate_any {step : σ → Reader (σ ⊕ α)} {hstep : Proceeds step}
    (h : ∀ b, Parses anything (step b) fun _ _ => True) (b : σ) :
    Parses anything (Reader.iterate step hstep b) fun _ _ => True :=
  .iterate [] (I := fun _ _ => True) (P := fun _ _ => True)
    (fun _ b _ => (h b).mono fun _ x _ => by cases x <;> trivial) trivial

end Reader.Parses

-- ── Passing over tokens ──────────────────────────────────────────────────────────

theorem parses_skipPast (c : Char) : Parses anything (skipPast c) fun _ _ => True :=
  .iterate_any (fun _ => (Parses.next _).map fun _ _ _ => trivial) ()

/-- Tokens that leave so many braces open. -/
inductive Token.Nests : List Token → Nat → Prop where
  | nil : Nests [] 0
  | opens {us : List Token} {depth : Nat} {t : Token} (h : Nests us depth) (ht : t.kind = .symbol '\x7b') :
      Nests (us ++ [t]) (depth + 1)
  | closes {us : List Token} {depth : Nat} {t : Token} (h : Nests us (depth + 1))
      (ht : t.kind = .symbol '\x7d') : Nests (us ++ [t]) depth
  | other {us : List Token} {depth : Nat} {t : Token} (h : Nests us depth)
      (hopen : t.kind ≠ .symbol '\x7b') (hclose : t.kind ≠ .symbol '\x7d') : Nests (us ++ [t]) depth

/-- Tokens up to the brace that closes one in front of them. -/
def Token.EndsBlock (us : List Token) (closing : Token) : Prop :=
  ∃ inner, us = inner ++ [closing] ∧ Nests inner 0 ∧ closing.kind = .symbol '\x7d'

theorem parses_braceStep {depth : Nat} (h : Nests us depth) :
    Parses anything (braceStep depth) fun vs => Sum.elim (Nests (us ++ vs)) (Token.EndsBlock (us ++ vs)) := by
  refine (Parses.next _).bind ?_
  rintro _ t rfl
  refine .pure ?_
  split
  · next hopen => exact h.opens hopen
  · next hopen =>
      split
      · next hclose =>
          cases depth with
          | zero => exact ⟨us, rfl, h, hclose⟩
          | succ depth => exact h.closes hclose
      · next hclose => exact h.other hopen hclose

theorem parses_skipBraces : Parses anything skipBraces Token.EndsBlock :=
  .iterate [] (I := Nests) (fun _ _ h => parses_braceStep h) .nil

theorem parses_skipBlock : Parses anything skipBlock fun _ _ => True :=
  (parses_skipPast _).bind fun _ _ _ => parses_skipBraces.map fun _ _ _ => trivial

-- ── Spans ────────────────────────────────────────────────────────────────────────

namespace Token

/-- The first of some tokens starts at an offset. -/
def StartsAt (us : List Token) (n : Nat) : Prop := ∃ t, us.head? = some t ∧ n = t.span.start

/-- The last of some tokens stops at an offset. -/
def StopsAt (us : List Token) (n : Nat) : Prop := ∃ t, us.getLast? = some t ∧ n = t.span.stop

/-- A span reaches from the first of some tokens to the last. -/
structure Covers (us : List Token) (span : Span) : Prop where
  start : StartsAt us span.start
  stop  : StopsAt us span.stop

theorem startsAt_cons (t : Token) (us : List Token) : StartsAt (t :: us) t.span.start := ⟨t, rfl, rfl⟩

theorem stopsAt_concat (us : List Token) (t : Token) : StopsAt (us ++ [t]) t.span.stop :=
  ⟨t, List.getLast?_concat, rfl⟩

theorem StopsAt.append {n : Nat} (h : StopsAt vs n) (us : List Token) : StopsAt (us ++ vs) n := by
  obtain ⟨t, ht, rfl⟩ := h
  exact ⟨t, by rw [List.getLast?_append, ht]; rfl, rfl⟩

theorem StartsAt.append {n : Nat} (h : StartsAt us n) (vs : List Token) : StartsAt (us ++ vs) n := by
  obtain ⟨t, ht, rfl⟩ := h
  exact ⟨t, by rw [List.head?_append, ht]; rfl, rfl⟩

end Token

-- ── Values ───────────────────────────────────────────────────────────────────────

/-- String literals in a row denote the values of each put together. -/
inductive Token.Spells : List Token → String → Prop where
  | one {t : Token} {value : String} (h : t.kind = .str value) : Spells [t] value
  | more {us : List Token} {t : Token} {value more : String} (h : Spells us value) (ht : t.kind = .str more) :
      Spells (us ++ [t]) (value ++ more)

/-- The number that a token stands for. -/
def Token.Kind.number? : Kind → Option Constant
  | .int spelling   => (integerValue? spelling).map fun n => .int n
  | .float spelling => (floatValue? spelling).map .float
  | .ident name     => (namedNumber? name).map .float
  | _               => none

/-- The tokens of a value: string literals, the tokens from one brace to the brace that closes it, a name, or a
    number with a sign or none. -/
inductive Constant.Phrase (source : List Char) : List Token → Constant → Prop where
  | str {us : List Token} {value : String} (h : Spells us value) : Phrase source us (.str value)
  | block {opening closing : Token} {us : List Token} (ho : opening.kind = .symbol '\x7b')
      (h : EndsBlock us closing) : Phrase source (opening :: us) (.between source opening closing)
  | name {t : Token} {name : String} (h : t.kind = .ident name) : Phrase source [t] (.ofName name)
  | number {t : Token} {c : Constant} (h : t.kind.number? = some c) : Phrase source [t] c
  | positive {sign t : Token} {c : Constant} (hsign : sign.kind = .symbol '+') (h : t.kind.number? = some c) :
      Phrase source [sign, t] c
  | negative {sign t : Token} {c : Constant} (hsign : sign.kind = .symbol '-') (h : t.kind.number? = some c) :
      Phrase source [sign, t] c.negated

theorem kind_of_stringForm {k : Kind} {value : String} (h : stringForm k = some value) : k = .str value := by
  unfold stringForm at h
  split at h
  · cases h; rfl
  · cases h

/-- A string with its last literal. -/
def Token.SpellsTo (us : List Token) (x : String × Token) : Prop :=
  Spells us x.1 ∧ StopsAt us x.2.span.stop

theorem parses_stringStep {x : String × Token} (h : SpellsTo us x) :
    Parses anything (stringStep x) fun vs => Sum.elim (SpellsTo (us ++ vs)) (SpellsTo (us ++ vs)) := by
  refine (Parses.accept _).bind ?_
  rintro _ (_ | y) ⟨rfl, hform⟩
  · refine .pure (show SpellsTo (us ++ []) x from ?_)
    rwa [List.append_nil]
  · exact .pure ⟨h.1.more (kind_of_stringForm (hform y rfl)), stopsAt_concat us y.2⟩

theorem parses_readString (what : Expectation) : Parses anything (readString what) SpellsTo := by
  refine (Parses.require _ _).bind ?_
  rintro _ x ⟨rfl, hform⟩
  exact .iterate [x.2] (I := SpellsTo) (fun _ _ h => parses_stringStep h)
    ⟨.one (kind_of_stringForm hform), stopsAt_concat [] x.2⟩

theorem parses_readInteger (what : Expectation) : Parses anything (readInteger what) fun _ _ => True := by
  refine (Parses.next _).bind fun _ t _ => ?_
  split
  · split
    · exact .pure trivial
    · exact .fail _
  · exact .fail _

theorem parses_readNumber :
    Parses anything readNumber fun us x => ∃ t, us = [t] ∧ t.kind.number? = some x.1 ∧ x.2 = t.span.stop := by
  refine (Parses.next _).bind ?_
  rintro _ t rfl
  have hpure : ∀ c : Constant, t.kind.number? = some c → Parses anything (pure (c, t.span.stop))
      fun vs x => ∃ u, [t] ++ vs = [u] ∧ u.kind.number? = some x.1 ∧ x.2 = u.span.stop :=
    fun c hc => .pure ⟨t, rfl, hc, rfl⟩
  cases hk : t.kind with
  | int spelling =>
      dsimp only
      cases hvalue : integerValue? spelling with
      | none => exact .fail _
      | some n => exact hpure _ (by rw [hk, Kind.number?, hvalue]; rfl)
  | float spelling =>
      dsimp only
      cases hvalue : floatValue? spelling with
      | none => exact .fail _
      | some x => exact hpure _ (by rw [hk, Kind.number?, hvalue]; rfl)
  | ident name =>
      dsimp only
      cases hvalue : namedNumber? name with
      | none => exact .fail _
      | some x => exact hpure _ (by rw [hk, Kind.number?, hvalue]; rfl)
  | str value => exact .fail _
  | symbol c => exact .fail _
  | comment text => exact .fail _

/-- **The value of an option is what its tokens stand for**, and ends where the last of them does. -/
theorem Constant.parses_read :
    Parses anything (Constant.read source) fun us x => Constant.Phrase source us x.1 ∧ StopsAt us x.2 := by
  have hnumber : ∀ front, Parses front readNumber fun us x => Constant.Phrase source us x.1 ∧ StopsAt us x.2 := by
    intro front
    refine parses_readNumber.weaken.mono ?_
    rintro _ x ⟨t, rfl, hnumber, hstop⟩
    exact ⟨.number hnumber, t, rfl, hstop⟩
  refine .peek? fun kind => ?_
  split
  · exact (parses_readString _).weaken.map fun us x hx => ⟨.str hx.1, hx.2⟩
  · split
    · next hc =>
        refine (Parses.next_of_begins _).bind ?_
        rintro _ o ⟨rfl, ho⟩
        refine parses_skipBraces.map fun us closing hclosing => ⟨.block (hc ▸ ho) hclosing, ?_⟩
        obtain ⟨inner, rfl, -, -⟩ := hclosing
        exact (stopsAt_concat inner closing).append [o]
    · split
      · next hc =>
          refine (Parses.next_of_begins _).bind ?_
          rintro _ sign ⟨rfl, hsign⟩
          refine parses_readNumber.bind ?_
          rintro _ x ⟨t, rfl, hnumber, hstop⟩
          exact .pure ⟨.negative (hc ▸ hsign) hnumber, t, rfl, hstop⟩
      · split
        · next hc =>
            refine (Parses.next_of_begins _).bind ?_
            rintro _ sign ⟨rfl, hsign⟩
            refine parses_readNumber.mono ?_
            rintro _ x ⟨t, rfl, hnumber, hstop⟩
            exact ⟨.positive (hc ▸ hsign) hnumber, t, rfl, hstop⟩
        · exact .refuse _
  · refine (Parses.next_of_begins _).bind ?_
    rintro _ t ⟨rfl, ht⟩
    exact .pure ⟨.name ht, t, rfl, rfl⟩
  · exact hnumber _
  · exact hnumber _
  · exact .refuse _

-- ── Names ────────────────────────────────────────────────────────────────────────

/-- The tokens of an option's name: a name or an extension in parentheses, and sub-fields behind it. -/
inductive Setting.NamePhrase : List Token → String → Prop where
  | bare {t : Token} {name : String} (h : t.kind = .ident name) : NamePhrase [t] name
  | extension {opening t closing : Token} {name : String} (ho : opening.kind = .symbol '(')
      (h : t.kind = .ident name) (hc : closing.kind = .symbol ')') :
      NamePhrase [opening, t, closing] ("(" ++ name ++ ")")
  | subfield {us : List Token} {t : Token} {name sub : String} (h : NamePhrase us name)
      (ht : t.kind = .ident sub) (hdot : sub.toList.head? = some '.') : NamePhrase (us ++ [t]) (name ++ sub)

open Setting (NamePhrase)

theorem kind_of_subfieldForm {k : Kind} {name : String} (h : subfieldForm k = some name) :
    k = .ident name ∧ name.toList.head? = some '.' := by
  unfold subfieldForm at h
  split at h
  · split at h
    · next hdot => cases h; exact ⟨rfl, hdot⟩
    · cases h
  · cases h

theorem parses_subfieldStep {name : String} (h : NamePhrase us name) :
    Parses anything (subfieldStep name) fun vs =>
      Sum.elim (NamePhrase (us ++ vs)) (NamePhrase (us ++ vs)) := by
  refine (Parses.accept _).bind ?_
  rintro _ (_ | y) ⟨rfl, hform⟩
  · refine .pure (show NamePhrase (us ++ []) name from ?_)
    rwa [List.append_nil]
  · obtain ⟨hk, hdot⟩ := kind_of_subfieldForm (hform y rfl)
    exact .pure (h.subfield hk hdot)

theorem parses_readBareName : Parses anything readBareName NamePhrase := by
  refine (Parses.acceptSymbol _).bind ?_
  rintro _ _ (⟨rfl, o, rfl, ho⟩ | ⟨rfl, rfl⟩)
  · refine (Parses.name _).bind ?_
    rintro _ x ⟨rfl, hx⟩
    refine (Parses.symbol _).bind ?_
    rintro _ c ⟨rfl, hc⟩
    exact .pure (.extension ho hx hc)
  · refine (Parses.name _).bind ?_
    rintro _ x ⟨rfl, hx⟩
    exact .pure (.bare hx)

/-- **The name of an option is what its tokens stand for.** -/
theorem parses_readOptionName : Parses anything readOptionName NamePhrase :=
  parses_readBareName.bind fun us _ h => .iterate us (fun _ _ => parses_subfieldStep) h

-- ── Options ──────────────────────────────────────────────────────────────────────

namespace Setting

/-- The tokens of an option in brackets: its name, `=` and its value. Its span reaches from the first token of
    the name to the last of the value. -/
inductive EntryPhrase (source : List Char) : List Token → Setting → Prop where
  | intro {N V : List Token} {equals : Token} {s : Setting} (name : NamePhrase N s.name)
      (hequals : equals.kind = .symbol '=') (value : Constant.Phrase source V s.value)
      (start : StartsAt N s.span.start) (stop : StopsAt V s.span.stop) :
      EntryPhrase source (N ++ equals :: V) s

/-- The tokens of an option in a statement: `option`, its name, `=`, its value and `;`. Its span reaches from
    the keyword to the semicolon. -/
inductive StatementPhrase (source : List Char) : List Token → Setting → Prop where
  | intro {N V : List Token} {keyword equals semicolon : Token} {s : Setting}
      (hkeyword : keyword.kind = .ident "option") (name : NamePhrase N s.name)
      (hequals : equals.kind = .symbol '=') (value : Constant.Phrase source V s.value)
      (hsemicolon : semicolon.kind = .symbol ';')
      (span : s.span = ⟨keyword.span.start, semicolon.span.stop⟩) :
      StatementPhrase source (keyword :: (N ++ equals :: (V ++ [semicolon]))) s

/-- Options separated by commas. -/
inductive EntriesPhrase (source : List Char) : List Token → List Setting → Prop where
  | one {us : List Token} {s : Setting} (h : EntryPhrase source us s) : EntriesPhrase source us [s]
  | more {us vs : List Token} {comma : Token} {ss : List Setting} {s : Setting} (h : EntriesPhrase source us ss)
      (hcomma : comma.kind = .symbol ',') (hs : EntryPhrase source vs s) :
      EntriesPhrase source (us ++ comma :: vs) (ss ++ [s])

/-- The tokens of a list of options in brackets and the span of the brackets, or nothing. -/
inductive ListPhrase (source : List Char) : List Token → List Setting → Option Span → Prop where
  | nil : ListPhrase source [] [] none
  | brackets {us : List Token} {opening closing : Token} {ss : List Setting} (ho : opening.kind = .symbol '[')
      (h : EntriesPhrase source us ss) (hc : closing.kind = .symbol ']') :
      ListPhrase source (opening :: (us ++ [closing])) ss (some ⟨opening.span.start, closing.span.stop⟩)

/-- **An option in a statement is what its tokens stand for.** -/
theorem parses_readStatement :
    Parses (Begins (.ident "option")) (readStatement source) (StatementPhrase source) := by
  refine (Parses.next_of_begins _).bind ?_
  rintro _ keyword ⟨rfl, hkeyword⟩
  refine parses_readOptionName.bind fun N name hname => ?_
  refine (Parses.symbol _).bind ?_
  rintro _ equals ⟨rfl, hequals⟩
  refine Constant.parses_read.bind fun V value hvalue => ?_
  refine (Parses.symbol _).bind ?_
  rintro _ semicolon ⟨rfl, hsemicolon⟩
  exact .trailing _ fun _ => .pure (.intro hkeyword hname hequals hvalue.1 hsemicolon rfl)

theorem NamePhrase.ne_nil {name : String} (h : NamePhrase us name) : us ≠ [] := by
  cases h with
  | subfield h ht hdot => exact List.concat_ne_nil _ _
  | _ => exact List.cons_ne_nil _ _

/-- The start of the next token is that of the tokens that are taken, if there are any. -/
theorem parses_nextStart {f : Nat → Reader α} {R : List Token → α → Prop}
    (hf : ∀ n, Parses (fun ts => ∀ t ∈ ts.head?, n = t.span.start) (f n) R) :
    Parses anything (nextStart >>= f) R := by
  refine .look (C := fun ts n => ∀ t ∈ ts.head?, n = t.span.start) (fun s n s' h => ?_) fun n _ _ _ hs => hf n hs.2
  cases h
  refine ⟨rfl, fun t ht => ?_⟩
  rw [Stream.tokens, List.head?_map] at ht
  obtain ⟨i, hi, rfl⟩ := Option.map_eq_some_iff.mp ht
  rw [hi]
  rfl

/-- **An option in brackets is what its tokens stand for.** -/
theorem parses_readEntry : Parses anything (readEntry source) (EntryPhrase source) := by
  refine parses_nextStart fun start => ?_
  refine parses_readOptionName.fronted.bind ?_
  rintro N name ⟨hname, rest, hstart⟩
  refine (Parses.symbol _).bind ?_
  rintro _ equals ⟨rfl, hequals⟩
  refine Constant.parses_read.map fun V value hvalue => .intro hname hequals hvalue.1 ?_ hvalue.2
  obtain ⟨t, N, rfl⟩ := List.exists_cons_of_ne_nil hname.ne_nil
  exact ⟨t, rfl, hstart t rfl⟩

/-- Options read so far, the last of them with a comma behind it. -/
def EntriesAhead (source : List Char) (us : List Token) (ss : List Setting) : Prop :=
  (us = [] ∧ ss = []) ∨
    ∃ vs comma, us = vs ++ [comma] ∧ EntriesPhrase source vs ss ∧ comma.kind = .symbol ','

theorem parses_entryStep {ss : List Setting} (h : EntriesAhead source us ss) :
    Parses anything (entryStep source ss) fun vs =>
      Sum.elim (EntriesAhead source (us ++ vs)) (EntriesPhrase source (us ++ vs)) := by
  refine parses_readEntry.bind fun vs s hs => ?_
  have hentries : EntriesPhrase source (us ++ vs) (ss ++ [s]) := by
    rcases h with ⟨rfl, rfl⟩ | ⟨us, comma, rfl, h, hcomma⟩
    · exact .one hs
    · rw [List.append_assoc]
      exact h.more hcomma hs
  refine (Parses.acceptSymbol _).bind ?_
  rintro _ _ (⟨rfl, comma, rfl, hcomma⟩ | ⟨rfl, rfl⟩)
  · exact .pure (.inr ⟨us ++ vs, comma, by rw [List.append_assoc, List.append_nil], hentries, hcomma⟩)
  · refine .pure ?_
    rw [List.append_nil, List.append_nil]
    exact hentries

/-- **Options in brackets are what their tokens stand for.** -/
theorem parses_readBracketed :
    Parses anything (readBracketed source) fun us x => ListPhrase source us x.1 x.2 := by
  refine (Parses.accept _).bind ?_
  rintro _ (_ | ⟨_, opening⟩) ⟨rfl, hform⟩
  · exact .pure .nil
  · have hentries : Parses anything (iterate (entryStep source) (.of_takes (takes_entryStep source)) [])
        (EntriesPhrase source) :=
      .iterate [] (I := EntriesAhead source) (fun _ _ h => parses_entryStep h) (.inl ⟨rfl, rfl⟩)
    refine hentries.bind fun us ss hss => ?_
    refine (Parses.symbol _).bind ?_
    rintro _ closing ⟨rfl, hclosing⟩
    exact .pure (.brackets (kind_of_symbolForm (hform _ rfl)) hss hclosing)

end Setting

end FlagSchema
