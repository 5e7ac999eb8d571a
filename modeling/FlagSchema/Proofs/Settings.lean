import FlagSchema.Proofs.Bare
import FlagSchema.Proofs.Constants

/-!
# Options on copied words

The readers of options do the same wherever the words they read stand, places and comments apart.

* **`Setting.replays_readEntry`**, **`Setting.replays_readBracketed`**, **`Setting.replays_readStatement`**:
  an option in brackets, a list of them, a statement.
* **`Setting.span_readEntry`**: where an option in brackets stands.
-/

namespace FlagSchema

open Token Reader

variable {source source' : List Char} {p q : Place} {keeps : Bool}

namespace Setting

-- ── Words are passed ─────────────────────────────────────────────────────────────

theorem passes_nextStart : Passes source keeps nextStart :=
  .of_same fun _ _ _ h => by cases h; rfl

theorem passes_readEntry : Passes source keeps (readEntry source') :=
  .bind passes_nextStart fun _ =>
    .bind passes_readOptionName fun _ =>
      .bind (.symbol _) fun _ => .bind Constant.passes_read fun _ => .pure _

theorem passes_entryStep (read : List Setting) : Passes source keeps (entryStep source' read) := by
  refine .bind passes_readEntry fun _ => .bind (.acceptSymbol _) fun found => ?_
  split <;> exact .pure _

theorem passes_readBracketed : Passes source keeps (readBracketed source') := by
  refine .bind (.accept _) fun found => ?_
  split
  · exact .pure _
  · exact .bind (.iterate passes_entryStep _) fun _ => .bind (.symbol _) fun _ => .pure _

theorem passes_readStatement : Passes source false (readStatement source') :=
  .bind (.next _) fun _ =>
    .bind passes_readOptionName fun _ =>
      .bind (.symbol _) fun _ =>
        .bind Constant.passes_read fun _ =>
          .bind (.symbol _) fun _ => .bind (.trailing _) fun _ => .pure _

-- ── Entries ──────────────────────────────────────────────────────────────────────

theorem replays_nextStart :
    Replays source source' p q 0 (Outcome.value fun _ _ => True) nextStart nextStart :=
  .of_tokens (fun _ _ _ h => by cases h; rfl) fun t => ⟨_, t, rfl, rfl⟩

/-- What follows the start of an option: its name and its value, and where it ends. -/
theorem replays_assignment {α : Type} {R : Outcome α} {f f' : String → Constant × Nat → Reader α}
    {n : Nat} (hn : 1 ≤ n ∨ ∃ k, 1 ≤ n + k ∧ ∀ name value, Takes k (f name value))
    (hp : ∀ name value, Passes source false (f name value))
    (h : ∀ vs name value value', Outcome.upTo p vs value value' →
      Replays source source' (p.after (textOf vs)) (q.after (textOf vs)) n (R.behind vs)
        (f name value) (f' name value')) :
    Replays source source' p q n R
      (readOptionName >>= fun name => symbol '=' >>= fun _ => Constant.read source >>= f name)
      (readOptionName >>= fun name => symbol '=' >>= fun _ => Constant.read source' >>= f' name) := by
  have htakes : 1 ≤ n ∨ ∃ k, 1 ≤ n + k ∧ ∀ name, Takes k
      (symbol '=' >>= fun _ => Constant.read source >>= f name) := by
    rcases hn with hn | ⟨k, hn, hk⟩
    · exact .inl hn
    · exact .inr ⟨k, hn, fun name => .bind_right ((Takes.symbol _).mono (Nat.zero_le _)) fun _ =>
        .bind_right ((takes_readConstant _).mono (Nat.zero_le _)) fun value => hk name value⟩
  refine .bind replays_readOptionName htakes passes_readOptionName (fun name =>
    .bind (.symbol _) fun _ => .bind Constant.passes_read fun value => hp name value) ?_
  rintro vs name _ rfl
  refine .bind (.symbol _) (.inl (Nat.zero_le _)) (.symbol _)
    (fun _ => .bind Constant.passes_read fun value => hp name value) ?_
  intro us _ _ _
  have hvalue : 1 ≤ n ∨ ∃ k, 1 ≤ n + k ∧ ∀ value, Takes k (f name value) :=
    hn.imp_right fun ⟨k, hn, hk⟩ => ⟨k, hn, hk name⟩
  refine .bind Constant.replays_read hvalue Constant.passes_read (fun value => hp name value) ?_
  intro xs value value' hvalue
  have hupTo : Outcome.upTo p (vs ++ us ++ xs) value value' := by
    rw [List.append_assoc]
    exact Outcome.upTo_append (Outcome.upTo_append hvalue)
  have hrest := h (vs ++ us ++ xs) name value value' hupTo
  rw [textOf_append, textOf_append, Place.after_append, Place.after_append, Place.after_append,
    Place.after_append] at hrest
  refine hrest.mono (Nat.le_refl _) fun ys a b hab => ?_
  rw [Outcome.behind, List.append_assoc, List.append_assoc] at hab
  exact hab

/-- **An option in brackets is read again as itself.** -/
theorem replays_readEntry :
    Replays source source' p q 1 (Outcome.value fun x y => x.bare = y.bare) (readEntry source)
      (readEntry source') := by
  refine .bind replays_nextStart (.inl (Nat.zero_le _)) passes_nextStart
    (fun _ => .bind passes_readOptionName fun _ =>
      .bind (.symbol _) fun _ => .bind Constant.passes_read fun _ => .pure _) ?_
  intro vs start start' _
  refine replays_assignment (.inl (Nat.le_refl _)) (fun _ _ => .pure _) ?_
  rintro us name ⟨value, stop⟩ ⟨_, stop'⟩ ⟨rfl, -⟩
  exact .pure rfl

/-- An option in brackets stands where its words stand, comments in front apart. -/
theorem span_readEntry {s s' : Stream} {vs ws : List Word} {x : Setting}
    (hs : s.Holds source p (vs ++ ws)) (h : readEntry source s = .ok (x, s'))
    (hs' : s'.Holds source (p.after (textOf vs)) ws) : x.span = spanOf p vs := by
  have htakes := takes_readEntry source h
  obtain ⟨start, s₁, h1, hrest⟩ := exists_of_bind h
  cases h1
  have hstop : x.span.stop = (p.after (textOf vs)).offset := by
    refine Replays.self (R := fun vs x _ => x.span.stop = (p.after (textOf vs)).offset)
      (replays_assignment (n := 1) (.inl (Nat.le_refl _)) (fun _ _ => .pure _) ?_) hs hrest hs'
    rintro us name ⟨value, stop⟩ ⟨_, stop'⟩ ⟨-, hstop⟩
    refine .pure ?_
    rw [Outcome.behind, List.append_nil]
    exact hstop
  have hstart : x.span.start = startOf p vs := by
    obtain ⟨name, s₂, -, hrest⟩ := exists_of_bind hrest
    obtain ⟨_, s₃, -, hrest⟩ := exists_of_bind hrest
    obtain ⟨value, s₄, -, hrest⟩ := exists_of_bind hrest
    cases hrest
    show (s.items.head?.map (·.token.span.start)).getD 0 = _
    cases hi : s.items with
    | nil =>
        have hzero : s.size = 0 := by rw [Stream.size, hi, List.length_nil]
        omega
    | cons i rest =>
        rw [List.head?_cons, Option.map_some, Option.getD_some, hs.start_head hi]
        exact startOf_append (hs.significant_ne_nil hs' rfl htakes)
  rw [spanOf, ← hstart, ← hstop]

-- ── Lists in brackets ────────────────────────────────────────────────────────────

/-- Two lists go on in the same way behind `xs` and `ys`. -/
def Extend (xs ys zs zs' : List Setting) : Prop :=
  ∃ more more', zs = xs ++ more ∧ zs' = ys ++ more' ∧ more.map bare = more'.map bare

theorem Extend.refl (xs ys : List Setting) : Extend xs ys xs ys :=
  ⟨[], [], (List.append_nil _).symm, (List.append_nil _).symm, rfl⟩

theorem Extend.push {xs ys zs zs' : List Setting} (h : Extend xs ys zs zs') {x y : Setting}
    (hxy : x.bare = y.bare) : Extend xs ys (zs ++ [x]) (zs' ++ [y]) := by
  obtain ⟨more, more', rfl, rfl, hmore⟩ := h
  refine ⟨more ++ [x], more' ++ [y], List.append_assoc .., List.append_assoc .., ?_⟩
  rw [List.map_append, List.map_append, hmore, List.map_singleton, List.map_singleton, hxy]

theorem proceeds_entryStep (source : List Char) : Proceeds (entryStep source) :=
  .of_takes (takes_entryStep source)

/-- The entries between the brackets, behind some that have been read. -/
theorem replays_entries (xs ys : List Setting) :
    Replays source source' p q 1 (Outcome.value (Extend xs ys))
      (iterate (entryStep source) (proceeds_entryStep source) xs)
      (iterate (entryStep source') (proceeds_entryStep source') ys) := by
  refine .iterate (I := Outcome.value (Extend xs ys)) passes_entryStep ?_ (Extend.refl xs ys)
  intro vs zs zs' hzs
  refine .bind replays_readEntry (.inl (Nat.le_refl _)) passes_readEntry
    (fun _ => .bind (.acceptSymbol _) fun found => ?_) ?_
  · split <;> exact .pure _
  · intro us x y hxy
    refine .bind (.acceptSymbol _) (.inl (Nat.le_refl _)) (.acceptSymbol _) (fun found => ?_) ?_
    · split <;> exact .pure _
    · rintro us' found _ rfl
      split
      · exact .pure (.inl ⟨_, _, rfl, rfl, Extend.push hzs hxy⟩)
      · exact .pure (.inr ⟨_, _, rfl, rfl, Extend.push hzs hxy⟩)

/-- A list of options behind its opening bracket. -/
def readInside (source : List Char) : Reader (List Setting × Token) := do
  let settings ← iterate (entryStep source) (proceeds_entryStep source) []
  let closing ← symbol ']'
  pure (settings, closing)

/-- How a list in brackets is read. -/
theorem readBracketed_eq (source : List Char) :
    readBracketed source = accept (symbolForm '[') >>= fun found =>
      match found with
      | none => pure ([], none)
      | some (_, opening) => readInside source >>= fun x =>
        pure (x.1, some ⟨opening.span.start, x.2.span.stop⟩) := by
  rw [readBracketed]
  congr 1
  funext found
  cases found with
  | none => rfl
  | some x => simp only [readInside, bind_assoc, pure_bind]

theorem passes_readInside : Passes source keeps (readInside source') :=
  .bind (.iterate passes_entryStep _) fun _ => .bind (.symbol _) fun _ => .pure _

/-- What is inside brackets is read again as itself. -/
theorem replays_readInside :
    Replays source source' p q 0
      (fun vs x y => x.1.map bare = y.1.map bare ∧ x.2.kind = .symbol ']' ∧ Outcome.last p q vs x.2 y.2)
      (readInside source) (readInside source') := by
  refine .bind (replays_entries [] [])
    (.inr ⟨1, Nat.le_refl _, fun _ => .bind_left (.symbol _) fun _ => .pure _⟩)
    (.iterate passes_entryStep _) (fun _ => .bind (.symbol _) fun _ => .pure _) ?_
  rintro us _ _ ⟨xs, ys, rfl, rfl, hxy⟩
  refine .bind (.symbol _) (.inl (Nat.le_refl _)) (.symbol _) (fun _ => .pure _) ?_
  rintro zs t t' ⟨ht, htaken⟩
  refine .pure ⟨hxy, ht, ?_⟩
  rw [List.append_nil]
  exact htaken.last.append

/-- **A list of options in brackets is read again as itself.** -/
theorem replays_readBracketed :
    Replays source source' p q 1 (Outcome.value fun x y => x.1.map bare = y.1.map bare)
      (readBracketed source) (readBracketed source') := by
  rw [readBracketed_eq, readBracketed_eq]
  refine .bind (.accept _) (.inl (Nat.le_refl _)) (.accept _) (fun found => ?_) ?_
  · split
    · exact .pure _
    · exact .bind passes_readInside fun _ => .pure _
  · rintro vs _ _ (⟨rfl, rfl, rfl⟩ | ⟨⟨_, o⟩, ⟨_, o'⟩, rfl, rfl, -⟩)
    · exact .pure rfl
    · refine .bind replays_readInside (.inl (Nat.zero_le _)) passes_readInside (fun _ => .pure _) ?_
      rintro us x y ⟨hxy, -⟩
      exact .pure hxy

/-- Behind an opening bracket, words are read as a list of options wherever they stand. -/
def ReadsInside (xs : List Setting) (vs : List Word) : Prop :=
  ∀ ⦃source q t us⦄, Lies source q vs → t.tokens = significant (placed q vs) ++ us →
    ∃ y t', readInside source t = .ok (y, t') ∧ t'.tokens = us ∧ y.1.map bare = xs.map bare

/-- What a list in brackets is made of, if there is one. -/
theorem readBracketed_inv {s s' : Stream} {ws : List Word} {x : List Setting × Option Span}
    (hs : s.Holds source p ws) (h : readBracketed source s = .ok (x, s')) :
    (x = ([], none) ∧ s' = s) ∨
    ∃ cs w us v ws', ws = cs ++ w :: (us ++ [v]) ++ ws' ∧ (∀ c ∈ cs, c.kind.isComment = true) ∧
      w.kind = .symbol '[' ∧ v.kind = .symbol ']' ∧
      s'.Holds source (p.after (textOf (cs ++ w :: (us ++ [v])))) ws' ∧
      s'.held = s.held ++ comments (cs ++ w :: (us ++ [v])) ∧
      x.2 = some (spanOf p (cs ++ w :: (us ++ [v]))) ∧ ReadsInside x.1 (us ++ [v]) := by
  rw [readBracketed_eq] at h
  obtain ⟨found, s₁, h1, hrest⟩ := exists_of_bind h
  cases found with
  | none =>
      cases hrest
      exact .inl ⟨rfl, (accept_eq_none_iff.mp h1).2⟩
  | some opening =>
      obtain ⟨_, token⟩ := opening
      obtain ⟨y, s₂, h2, hrest⟩ := exists_of_bind hrest
      cases hrest
      obtain ⟨cs, w, ws₁, rfl, hcs, hw, hform, rfl, hheld₁, hs₁⟩ := accept_some_inv hs h1
      obtain ⟨vs, ws', rfl, hs', hheld', -, hclosing, hlast⟩ := replays_readInside.inv passes_readInside hs₁ h2
      have hstop := hlast.stop_eq
      obtain ⟨us, v, rfl, hv, -⟩ := hlast
      rw [hv, Word.token_kind] at hclosing
      have hwords : cs ++ w :: (us ++ [v]) = cs ++ [w] ++ (us ++ [v]) := by
        rw [List.append_assoc, List.singleton_append]
      refine .inr ⟨cs, w, us, v, ws', ?_, hcs, kind_of_symbolForm hform, hclosing, ?_, ?_, ?_, ?_⟩
      · simp only [List.append_assoc, List.cons_append]
      · rw [hwords, textOf_append, Place.after_append]
        exact hs'
      · rw [hheld', hheld₁, comments_append cs, comments_cons hw, List.append_assoc]
      · rw [spanOf, startOf_comments hcs hw, hwords, textOf_append, Place.after_append, ← hstop]
        rfl
      · intro source' q t us' hq ht
        obtain ⟨z, t', hz, ht', hyz, -⟩ := replays_readInside hs₁ h2 hs' hq ht (.zero ..)
        exact ⟨z, t', hz, ht', hyz.symm⟩

-- ── Statements ───────────────────────────────────────────────────────────────────

/-- A statement behind its keyword, up to its semicolon. -/
def readAssignment (source : List Char) : Reader (String × Constant × Token) := do
  let name ← readOptionName
  let _ ← symbol '='
  let (value, _) ← Constant.read source
  let semicolon ← symbol ';'
  pure (name, value, semicolon)

/-- The comment behind a statement, and with it the option. -/
def readTrailing (keyword : Token) : String × Constant × Token → Reader Setting
  | (name, value, semicolon) => do
    let trailing ← Reader.trailing semicolon.position.line
    pure { name, value, span := ⟨keyword.span.start, semicolon.span.stop⟩, trailing }

/-- How a statement is read. -/
theorem readStatement_eq (source : List Char) :
    readStatement source = next .optionName >>= fun keyword =>
      readAssignment source >>= readTrailing keyword := by
  simp only [readStatement, readAssignment, readTrailing, bind_assoc, pure_bind]

theorem passes_readAssignment : Passes source keeps (readAssignment source') :=
  .bind passes_readOptionName fun _ =>
    .bind (.symbol _) fun _ =>
      .bind Constant.passes_read fun _ => .bind (.symbol _) fun _ => .pure _

theorem replays_readAssignment :
    Replays source source' p q 0
      (fun vs x y => x.1 = y.1 ∧ x.2.1 = y.2.1 ∧ x.2.2.kind = .symbol ';' ∧
        Outcome.last p q vs x.2.2 y.2.2) (readAssignment source) (readAssignment source') := by
  refine replays_assignment (.inr ⟨1, Nat.le_refl _, fun _ _ => .bind_left (.symbol _) fun _ =>
    .pure _⟩) (fun _ _ => .bind (.symbol _) fun _ => .pure _) ?_
  rintro vs name ⟨value, stop⟩ ⟨_, stop'⟩ ⟨rfl, -⟩
  refine .bind (.symbol _) (.inl (Nat.le_refl _)) (.symbol _) (fun _ => .pure _) ?_
  rintro us t t' ⟨ht, htaken⟩
  refine .pure ⟨rfl, rfl, ht, ?_⟩
  rw [List.append_nil]
  exact htaken.last.append

theorem replays_readTrailing (keyword keyword' semicolon semicolon' : Token) (name : String)
    (value : Constant) :
    Replays source source' p q 0 (Outcome.value fun x y => x.bare = y.bare)
      (readTrailing keyword (name, value, semicolon))
      (readTrailing keyword' (name, value, semicolon')) := by
  refine .bind (.trailing _ _) (.inl (Nat.le_refl _)) (.trailing _) (fun _ => .pure _) ?_
  intro us c c' _
  exact .pure rfl

/-- **A statement is read again as itself** behind its keyword. -/
theorem replays_behindKeyword (keyword keyword' : Token) :
    Replays source source' p q 0 (Outcome.value fun x y => x.bare = y.bare)
      (readAssignment source >>= readTrailing keyword)
      (readAssignment source' >>= readTrailing keyword') := by
  refine .bind replays_readAssignment (.inl (Nat.le_refl _)) passes_readAssignment
    (fun _ => .bind (.trailing _) fun _ => .pure _) ?_
  rintro vs ⟨name, value, t⟩ ⟨_, _, t'⟩ ⟨rfl, rfl, -, -⟩
  exact replays_readTrailing ..

theorem replays_readStatement :
    Replays source source' p q 0 (Outcome.value fun x y => x.bare = y.bare) (readStatement source)
      (readStatement source') := by
  rw [readStatement_eq, readStatement_eq]
  refine .bind (.next _) (.inl (Nat.le_refl _)) (.next _) (fun _ => .bind passes_readAssignment
    fun _ => .bind (.trailing _) fun _ => .pure _) ?_
  intro vs t t' _
  exact replays_behindKeyword t t'

/-- Behind a keyword, words are read as an option wherever they stand. -/
def ReadsAs (x : Setting) (vs : List Word) : Prop :=
  ∀ ⦃source q t us⦄ (keyword : Token), Lies source q vs →
    t.tokens = significant (placed q vs) ++ us →
    ∃ y t', (readAssignment source >>= readTrailing keyword) t = .ok (y, t') ∧ t'.tokens = us ∧
      y.bare = x.bare

/-- What a statement is made of: its words, between them and the next ones the comment behind it. The
    comments among its words are held. -/
theorem readStatement_inv {s s' : Stream} {ws : List Word} {x : Setting} (hs : s.Holds source p ws)
    (h : readStatement source s = .ok (x, s')) :
    ∃ cs w us v ts ws', ws = cs ++ w :: (us ++ [v]) ++ ts ++ ws' ∧
      (∀ c ∈ cs, c.kind.isComment = true) ∧ w.kind.isComment = false ∧ v.kind = .symbol ';' ∧
      s'.Holds source (p.after (textOf (cs ++ w :: (us ++ [v]) ++ ts))) ws' ∧
      s'.held = s.held ++ comments (cs ++ w :: (us ++ [v])) ∧
      (∀ t ∈ ts, t.kind.isComment = true) ∧ comments ts = x.trailing.toList ∧
      x.span = spanOf p (cs ++ w :: (us ++ [v])) ∧ x.ReadsAs (us ++ [v]) := by
  rw [readStatement_eq] at h
  obtain ⟨keyword, s₁, h1, h⟩ := exists_of_bind h
  obtain ⟨⟨name, value, semicolon⟩, s₂, h2, h3⟩ := exists_of_bind h
  obtain ⟨vs₁, ws₁, rfl, hs₁, hheld₁, hkeyword⟩ := (Replays.next _).inv (.next _) hs h1
  obtain ⟨vs₂, ws₂, rfl, hs₂, hheld₂, -, -, hsemi, hlast⟩ :=
    replays_readAssignment.inv passes_readAssignment hs₁ h2
  obtain ⟨trailing, s₃, h3, hx⟩ := exists_of_bind h3
  obtain ⟨ts, ws₃, rfl, hs₃, hheld₃, htexts, hts⟩ := trailing_inv hs₂ h3
  cases hx
  obtain ⟨cs, w, rfl, hcs, hw, rfl, -⟩ := hkeyword
  have hstop := hlast.append.stop_eq
  obtain ⟨us, v, rfl, rfl, -⟩ := hlast
  have hwords : cs ++ w :: (us ++ [v]) = cs ++ [w] ++ (us ++ [v]) := by
    rw [List.append_assoc, List.singleton_append]
  refine ⟨cs, w, us, v, ts, ws₃, ?_, hcs, hw, hsemi, ?_, ?_, hts, htexts.symm ▸ rfl, ?_, ?_⟩
  · rw [hwords]
    simp only [List.append_assoc]
  · rw [hwords, textOf_append, textOf_append, Place.after_append, Place.after_append]
    exact hs₃
  · rw [hheld₃, hheld₂, hheld₁, List.append_assoc, ← comments_append, hwords]
  · rw [spanOf, startOf_comments hcs hw, hwords, ← hstop]
    rfl
  · intro source' q t zs keyword' hq ht
    obtain ⟨⟨name', value', t'⟩, t₁, hb, ht₁, rfl, rfl, -, -⟩ :=
      replays_readAssignment hs₁ h2 hs₂ hq ht (.zero ..)
    obtain ⟨c, t₂, hc, ht₂⟩ := trailing_total t'.position.line t₁
    refine ⟨⟨name, value, ⟨keyword'.span.start, t'.span.stop⟩, c⟩, t₂, ?_, ht₂.trans ht₁, rfl⟩
    rw [bind_ok hb]
    exact bind_ok hc

end Setting

end FlagSchema
