import FlagSchema.Proofs.Replay
import FlagSchema.Reading.Setting

/-!
# Constants on copied words

The readers of values and of option names do the same wherever the words they read stand.

* **`Constant.replays_read`**: a value, the text of a `{ … }` value included.
* **`replays_readOptionName`**: the name of an option.
* **`replays_skipPast`**, **`replays_skipBraces`**: passing over what is not looked at.
-/

namespace FlagSchema

open Token Reader

variable {source source' : List Char} {p q : Place} {keeps : Bool}

-- ── Words are passed ─────────────────────────────────────────────────────────────

theorem passes_skipStep (c : Char) (u : Unit) : Passes source keeps (skipStep c u) :=
  .bind (.next _) fun _ => .pure _

theorem passes_skipPast (c : Char) : Passes source keeps (skipPast c) :=
  .iterate (passes_skipStep c) ()

theorem passes_braceStep (depth : Nat) : Passes source keeps (braceStep depth) :=
  .bind (.next _) fun _ => .pure _

theorem passes_skipBraces : Passes source keeps skipBraces :=
  .iterate passes_braceStep 0

theorem passes_skipBlock : Passes source keeps skipBlock :=
  .bind (passes_skipPast _) fun _ => .bind passes_skipBraces fun _ => .pure _

theorem passes_readInteger (what : Expectation) : Passes source keeps (readInteger what) := by
  refine .bind (.next _) fun t => ?_
  split
  · split
    · exact .pure _
    · exact .fail _
  · exact .fail _

theorem passes_readNumber : Passes source keeps readNumber := by
  refine .bind (.next _) fun t => ?_
  dsimp only
  split
  · exact .pure _
  · exact .fail _

theorem passes_stringStep (read : String × Token) : Passes source keeps (stringStep read) :=
  .bind (.accept _) fun _ => .pure _

theorem passes_readString (what : Expectation) : Passes source keeps (readString what) :=
  .bind (.require _ _) fun first => .iterate passes_stringStep first

theorem Constant.passes_read : Passes source keeps (Constant.read source') := by
  refine .bind .peek? fun kind => ?_
  split
  · exact .bind (passes_readString _) fun _ => .pure _
  · split
    · exact .bind (.next _) fun _ => .bind passes_skipBraces fun _ => .pure _
    · split
      · exact .bind (.next _) fun _ => .bind passes_readNumber fun _ => .pure _
      · split
        · exact .bind (.next _) fun _ => passes_readNumber
        · exact .refuse _
  · exact .bind (.next _) fun _ => .pure _
  · exact passes_readNumber
  · exact passes_readNumber
  · exact .refuse _

theorem passes_subfieldStep (name : String) : Passes source keeps (subfieldStep name) :=
  .bind (.accept _) fun _ => .pure _

theorem passes_readBareName : Passes source keeps readBareName := by
  refine .bind (.acceptSymbol _) fun found => ?_
  split
  · exact .bind (.name _) fun _ => .bind (.symbol _) fun _ => .pure _
  · exact .bind (.name _) fun _ => .pure _

theorem passes_readOptionName : Passes source keeps readOptionName :=
  .bind passes_readBareName fun bare => .iterate passes_subfieldStep bare

-- ── Passing over tokens ──────────────────────────────────────────────────────────

theorem replays_skipPast (c : Char) :
    Replays source source' p q 0 (Outcome.value fun _ _ => True) (skipPast c) (skipPast c) := by
  refine .iterate (I := Outcome.value Eq) (passes_skipStep c) ?_ rfl
  rintro vs u _ rfl
  refine .bind (.next _) (.inl (Nat.le_refl _)) (.next _) (fun _ => .pure _) ?_
  intro us t t' ht
  refine .pure ?_
  rw [ht.last.kind_eq]
  split
  · exact .inr ⟨_, _, rfl, rfl, trivial⟩
  · exact .inl ⟨_, _, rfl, rfl, rfl⟩

theorem replays_skipBraces :
    Replays source source' p q 0 (Outcome.last p q) skipBraces skipBraces := by
  refine .iterate (I := Outcome.value Eq) passes_braceStep ?_ rfl
  rintro vs depth _ rfl
  refine .bind (.next _) (.inl (Nat.le_refl _)) (.next _) (fun _ => .pure _) ?_
  intro us t t' ht
  refine .pure ?_
  rw [ht.last.kind_eq]
  split
  · exact .inl ⟨_, _, rfl, rfl, rfl⟩
  · split
    · cases depth with
      | zero =>
          refine .inr ⟨_, _, rfl, rfl, ?_⟩
          have hlast := ht.last.append
          rw [← List.append_nil us] at hlast
          exact hlast
      | succ depth => exact .inl ⟨_, _, rfl, rfl, rfl⟩
    · exact .inl ⟨_, _, rfl, rfl, rfl⟩

theorem replays_skipBlock :
    Replays source source' p q 0 (Outcome.value Eq) skipBlock skipBlock := by
  refine .bind (replays_skipPast _) (.inl (Nat.le_refl _)) (passes_skipPast _)
    (fun _ => .bind passes_skipBraces fun _ => .pure _) ?_
  intro vs _ _ _
  refine .bind replays_skipBraces (.inl (Nat.le_refl _)) passes_skipBraces (fun _ => .pure _) ?_
  intro us _ _ _
  exact .pure rfl

-- ── Numbers and strings ──────────────────────────────────────────────────────────

/-- What was read is the same, and its end is the end of the words. -/
def Reader.Outcome.upTo {α : Type} (p : Place) : Outcome (α × Nat) := fun vs x y =>
  x.1 = y.1 ∧ x.2 = (p.after (textOf vs)).offset

/-- The end of words behind others is the end of them all. -/
theorem Reader.Outcome.upTo_append {α : Type} {vs us : List Word} {x y : α × Nat}
    (h : Outcome.upTo (p.after (textOf vs)) us x y) : Outcome.upTo p (vs ++ us) x y := by
  refine ⟨h.1, ?_⟩
  rw [textOf_append, Place.after_append]
  exact h.2

theorem replays_readInteger (what : Expectation) :
    Replays source source' p q 0 (Outcome.value fun x y => x.1 = y.1) (readInteger what)
      (readInteger what) := by
  refine .bind (.next _) (.inl (Nat.le_refl _)) (.next _) (fun t => ?_) ?_
  · split
    · split
      · exact .pure _
      · exact .fail _
    · exact .fail _
  · intro vs t t' ht
    rw [ht.last.kind_eq]
    split
    · next spelling _ =>
        cases integerValue? spelling with
        | none => exact .fail
        | some n => exact .pure rfl
    · exact .fail

theorem replays_readNumber :
    Replays source source' p q 0 (Outcome.upTo p) readNumber readNumber := by
  refine .bind (.next _) (.inl (Nat.le_refl _)) (.next _) (fun t => ?_) ?_
  · dsimp only
    split
    · exact .pure _
    · exact .fail _
  · intro vs t t' ht
    have hpure : ∀ c : Constant, Replays source source' (p.after (textOf vs)) (q.after (textOf vs)) 0
        ((Outcome.upTo p).behind vs) (pure (c, t.span.stop)) (pure (c, t'.span.stop)) := by
      intro c
      refine .pure ⟨rfl, ?_⟩
      rw [List.append_nil]
      exact ht.last.stop_eq
    obtain ⟨kind, span, position⟩ := t
    obtain ⟨kind', span', position'⟩ := t'
    obtain rfl : kind = kind' := ht.last.kind_eq
    cases kind with
    | int spelling =>
        dsimp only
        cases integerValue? spelling with
        | none => exact .fail
        | some n => exact hpure _
    | float spelling =>
        dsimp only
        cases floatValue? spelling with
        | none => exact .fail
        | some x => exact hpure _
    | ident name =>
        dsimp only
        cases namedNumber? name with
        | none => exact .fail
        | some x => exact hpure _
    | str value => exact .fail
    | symbol c => exact .fail
    | comment text => exact .fail

theorem replays_readString (what : Expectation) :
    Replays source source' p q 1
      (fun vs x y => x.1 = y.1 ∧ x.2.span.stop = (p.after (textOf vs)).offset)
      (readString what) (readString what) := by
  refine .bind (.require _ _) (.inl (Nat.zero_le _)) (.require _ _)
    (fun first => .iterate passes_stringStep first) ?_
  intro vs x y hxy
  refine .iterate (I := fun us b c => b.1 = c.1 ∧
    b.2.span.stop = (p.after (textOf (vs ++ us))).offset) passes_stringStep ?_ ⟨hxy.2.1, ?_⟩
  · intro us b c hbc
    refine .bind (.accept _) (.inl (Nat.le_refl _)) (.accept _) (fun _ => .pure _) ?_
    rintro ys _ _ (⟨rfl, rfl, rfl⟩ | ⟨⟨value, t⟩, ⟨_, u⟩, rfl, rfl, -, rfl, htu⟩)
    · refine .pure (.inr ⟨_, _, rfl, rfl, ?_⟩)
      rw [Outcome.behind, Outcome.behind, List.nil_append, List.append_nil]
      exact hbc
    · refine .pure (.inl ⟨_, _, rfl, rfl, ?_⟩)
      refine ⟨by rw [hbc.1], ?_⟩
      rw [htu.last.stop_eq, List.append_nil, ← Place.after_append, ← Place.after_append,
        ← textOf_append, ← textOf_append]
  · rw [List.append_nil]
    exact hxy.2.2.last.stop_eq

-- ── Values ───────────────────────────────────────────────────────────────────────

/-- The text between two braces is the same in both sources. -/
theorem Constant.between_eq {vs us : List Word} {opening opening' closing closing' : Token}
    (hp : Lies source p (vs ++ us)) (hq : Lies source' q (vs ++ us))
    (ho : Outcome.last p q vs opening opening')
    (hc : Outcome.last (p.after (textOf vs)) (q.after (textOf vs)) us closing closing') :
    Constant.between source opening closing = Constant.between source' opening' closing' := by
  have hstop := ho.stop_eq
  have hstop' : opening'.span.stop = (q.after (textOf vs)).offset := by
    obtain ⟨xs, w, rfl, -, rfl⟩ := ho
    rw [textOf_append, textOf_cons, textOf_nil, List.append_nil, Place.after_append]
    rfl
  obtain ⟨xs, w, rfl, rfl, rfl⟩ := hc
  have hslice := hp.right.slice_between
  have hslice' := hq.right.slice_between
  rw [Constant.between, Constant.between, hstop, hstop', Word.start_token, Word.start_token,
    hslice, hslice']

/-- A value in braces is read again as itself: it is the text between them. -/
theorem Constant.replays_aggregate (what : Expectation) :
    Replays source source' p q 1 (Outcome.upTo p)
      (next what >>= fun o => skipBraces >>= fun k => pure (Constant.between source o k, k.span.stop))
      (next what >>= fun o => skipBraces >>= fun k => pure (Constant.between source' o k, k.span.stop)) := by
  refine .of_lies (R := fun vs x y => ∃ us us' o o' k k', vs = us ++ us' ∧
      Outcome.last p q us o o' ∧
      Outcome.last (p.after (textOf us)) (q.after (textOf us)) us' k k' ∧
      x = (.between source o k, k.span.stop) ∧ y = (.between source' o' k', k'.span.stop)) ?_ ?_
  · refine .bind (.next _) (.inl (Nat.zero_le _)) (.next _)
      (fun _ => .bind passes_skipBraces fun _ => .pure _) ?_
    intro us o o' ho
    refine .bind replays_skipBraces (.inl (Nat.zero_le _)) passes_skipBraces
      (fun _ => .pure _) ?_
    intro us' k k' hk
    refine .pure ⟨us, us', o, o', k, k', ?_, ho.last, hk, rfl, rfl⟩
    rw [List.append_nil]
  · rintro vs _ _ hp hq ⟨us, us', o, o', k, k', rfl, ho, hk, rfl, rfl⟩
    exact Outcome.upTo_append ⟨Constant.between_eq hp hq ho hk, hk.stop_eq⟩

/-- **A value is read again as itself**, wherever its words stand. -/
theorem Constant.replays_read :
    Replays source source' p q 1 (Outcome.upTo p) (Constant.read source) (Constant.read source') := by
  have hnumber : ∀ p q : Place,
      Replays source source' p q 1 (Outcome.upTo p) readNumber readNumber := fun _ _ =>
    replays_readNumber.mono (Nat.zero_le _) fun _ _ _ h => h
  refine .peek? (takes_readConstant source) fun kind => ?_
  split
  · refine .bind (replays_readString _) (.inl (Nat.le_refl _)) (passes_readString _)
      (fun _ => .pure _) ?_
    rintro vs ⟨value, last⟩ ⟨_, last'⟩ ⟨rfl, hstop⟩
    refine .pure ⟨rfl, ?_⟩
    rw [List.append_nil]
    exact hstop
  · next c =>
      split
      · exact Constant.replays_aggregate _
      · split
        · refine .bind (.next _) (.inl (Nat.zero_le _)) (.next _)
            (fun _ => .bind passes_readNumber fun _ => .pure _) ?_
          intro us o o' ho
          refine .bind (hnumber _ _) (.inl (Nat.le_refl _)) passes_readNumber (fun _ => .pure _) ?_
          rintro us' ⟨value, stop⟩ ⟨_, stop'⟩ ⟨rfl, hstop⟩
          refine .pure (Outcome.upTo_append ⟨rfl, ?_⟩)
          rw [List.append_nil]
          exact hstop
        · split
          · refine .bind (.next _) (.inl (Nat.zero_le _)) (.next _) (fun _ => passes_readNumber) ?_
            intro us o o' ho
            exact (hnumber _ _).mono (Nat.le_refl _) fun _ _ _ => Outcome.upTo_append
          · exact .refuse
  · refine .bind (.next _) (.inl (Nat.zero_le _)) (.next _) (fun _ => .pure _) ?_
    intro vs t t' ht
    refine .pure ⟨rfl, ?_⟩
    rw [List.append_nil]
    exact ht.last.stop_eq
  · exact hnumber _ _
  · exact hnumber _ _
  · exact .refuse

-- ── Integers ─────────────────────────────────────────────────────────────────────

section

variable {s : Stream} {t : Token} {us : List Token} {text : String}

theorem readInteger_ok {n : Nat} (what : Expectation) (hs : s.tokens = t :: us) (ht : t.kind = .int text)
    (hn : integerValue? text = some n) : ∃ s', readInteger what s = .ok ((n, t), s') ∧ s'.tokens = us := by
  obtain ⟨s', h, hs'⟩ := next_ok what hs
  refine ⟨s', ?_, hs'⟩
  rw [readInteger, bind_ok h, ht]
  dsimp only
  rw [hn]
  rfl

theorem readInteger_error (what : Expectation) (hs : s.tokens = t :: us) (ht : t.kind = .int text)
    (hn : integerValue? text = none) : readInteger what s = .error (.badNumber t.position text) := by
  obtain ⟨s', h, hs'⟩ := next_ok what hs
  rw [readInteger, bind_ok h, ht]
  dsimp only
  rw [hn]
  rfl

theorem readNumber_ok {n : Nat} (hs : s.tokens = t :: us) (ht : t.kind = .int text)
    (hn : integerValue? text = some n) :
    ∃ s', readNumber s = .ok ((.int n, t.span.stop), s') ∧ s'.tokens = us := by
  obtain ⟨s', h, hs'⟩ := next_ok .number hs
  refine ⟨s', ?_, hs'⟩
  rw [readNumber, bind_ok h, ht]
  dsimp only
  rw [hn]
  rfl

theorem readNumber_error (hs : s.tokens = t :: us) (ht : t.kind = .int text) (hn : integerValue? text = none) :
    readNumber s = .error (.badNumber t.position text) := by
  obtain ⟨s', h, hs'⟩ := next_ok .number hs
  rw [readNumber, bind_ok h, ht]
  dsimp only
  rw [hn]
  rfl

/-- An integer that is read has a value. -/
theorem readInteger_inv {what : Expectation} {x : Nat × Token} {s' : Stream} (h : readInteger what s = .ok (x, s')) :
    ∃ text, x.2.kind = .int text ∧ integerValue? text = some x.1 := by
  obtain ⟨⟨kind, span, position⟩, s₁, -, h⟩ := exists_of_bind h
  cases kind with
  | int text =>
      dsimp only at h
      cases hn : integerValue? text with
      | none => rw [hn] at h; cases h
      | some n => rw [hn] at h; cases h; exact ⟨text, rfl, hn⟩
  | _ => cases h

/-- A value that starts with an integer is that number. -/
theorem Constant.read_int (source : List Char) (hs : s.tokens = t :: us) (ht : t.kind = .int text) :
    Constant.read source s = readNumber s := by
  have hpeek : peek? s = .ok (some t.kind, s) := by rw [peek?, kindAt?_zero hs]
  rw [Constant.read, bind_ok hpeek, ht]

/-- A value that starts with a plus sign is the number behind it. -/
theorem Constant.read_plus (source : List Char) (hs : s.tokens = t :: us) (ht : t.kind = .symbol '+') :
    ∃ s₁, s₁.tokens = us ∧ Constant.read source s = readNumber s₁ := by
  have hpeek : peek? s = .ok (some t.kind, s) := by rw [peek?, kindAt?_zero hs]
  obtain ⟨s₁, h, hs₁⟩ := next_ok .constant hs
  refine ⟨s₁, hs₁, ?_⟩
  rw [Constant.read, bind_ok hpeek, ht]
  exact bind_ok h

/-- A value that starts with a minus sign is the negative of the number behind it. -/
theorem Constant.read_minus (source : List Char) (hs : s.tokens = t :: us) (ht : t.kind = .symbol '-') :
    ∃ s₁, s₁.tokens = us ∧
      Constant.read source s = (readNumber >>= fun x => pure (x.1.negated, x.2) : Reader (Constant × Nat)) s₁ := by
  have hpeek : peek? s = .ok (some t.kind, s) := by rw [peek?, kindAt?_zero hs]
  obtain ⟨s₁, h, hs₁⟩ := next_ok .constant hs
  refine ⟨s₁, hs₁, ?_⟩
  rw [Constant.read, bind_ok hpeek, ht]
  exact bind_ok h

end

/-- A number is no name. -/
theorem readNumber_isNumber {s s' : Stream} {x : Constant × Nat} (h : readNumber s = .ok (x, s')) :
    (∃ n, x.1 = .int n) ∨ ∃ y, x.1 = .float y := by
  obtain ⟨⟨kind, span, position⟩, s₁, -, h⟩ := exists_of_bind h
  cases kind with
  | int spelling =>
      dsimp only at h
      cases hn : integerValue? spelling with
      | none => rw [hn] at h; cases h
      | some n => rw [hn] at h; cases h; exact .inl ⟨n, rfl⟩
  | float spelling =>
      dsimp only at h
      cases hx : floatValue? spelling with
      | none => rw [hx] at h; cases h
      | some y => rw [hx] at h; cases h; exact .inr ⟨y, rfl⟩
  | ident name =>
      dsimp only at h
      cases hx : namedNumber? name with
      | none => rw [hx] at h; cases h
      | some y => rw [hx] at h; cases h; exact .inr ⟨y, rfl⟩
  | str value => cases h
  | symbol c => cases h
  | comment text => cases h

theorem readNumber_ne_ident {s s' : Stream} {x : Constant × Nat} (h : readNumber s = .ok (x, s'))
    (name : String) : x.1 ≠ .ident name ∧ x.1.negated ≠ .ident name := by
  rcases readNumber_isNumber h with ⟨n, hn⟩ | ⟨y, hy⟩
  · rw [hn]
    exact ⟨nofun, nofun⟩
  · rw [hy]
    exact ⟨nofun, nofun⟩

theorem Constant.eq_of_ofName {word name : String} (h : Constant.ofName word = .ident name) :
    word = name := by
  unfold Constant.ofName at h
  split_ifs at h
  cases hnumber : namedNumber? word with
  | some n => rw [hnumber] at h; cases h
  | none =>
      rw [hnumber] at h
      exact Constant.ident.inj h

/-- A value that is a name is the last word read. -/
theorem Constant.last_of_ident {s s' : Stream} {ws : List Word} {x : Constant × Nat} {name : String}
    (hs : s.Holds source p ws) (h : Constant.read source s = .ok (x, s')) (hx : x.1 = .ident name) :
    ∃ us v ws', ws = us ++ [v] ++ ws' ∧ v.kind = .ident name ∧
      s'.Holds source (p.after (textOf (us ++ [v]))) ws' := by
  obtain ⟨kind, s₁, h1, hread⟩ := exists_of_bind h
  obtain ⟨rfl, hkind⟩ := eq_of_peek? h1
  split at hread
  · obtain ⟨_, s₂, -, hread⟩ := exists_of_bind hread
    cases hread
    cases hx
  · split at hread
    · obtain ⟨_, s₂, -, hread⟩ := exists_of_bind hread
      obtain ⟨_, s₃, -, hread⟩ := exists_of_bind hread
      cases hread
      cases hx
    split at hread
    · obtain ⟨_, s₂, -, hread⟩ := exists_of_bind hread
      obtain ⟨_, s₃, h2, hread⟩ := exists_of_bind hread
      cases hread
      exact absurd hx (readNumber_ne_ident h2 name).2
    split at hread
    · obtain ⟨_, s₂, -, h2⟩ := exists_of_bind hread
      exact absurd hx (readNumber_ne_ident h2 name).1
    · exact absurd hread (refuse_ne_ok _ _ _)
  · next n =>
      obtain ⟨t, s₂, h2, hread⟩ := exists_of_bind hread
      cases hread
      obtain ⟨vs, ws', rfl, hs', -, cs, v, rfl, hcs, hv, -⟩ := (Replays.next _).inv (.next _) hs h2
      rw [List.append_assoc] at hs
      rw [hs.kindAt?_zero hcs hv] at hkind
      have hn : n = name := Constant.eq_of_ofName hx
      exact ⟨cs, v, ws', rfl, hn ▸ Option.some.inj hkind, hs'⟩
  · exact absurd hx (readNumber_ne_ident hread name).1
  · exact absurd hx (readNumber_ne_ident hread name).1
  · exact absurd hread (refuse_ne_ok _ _ _)

-- ── Names ────────────────────────────────────────────────────────────────────────

theorem replays_readBareName :
    Replays source source' p q 0 (Outcome.value Eq) readBareName readBareName := by
  refine .bind (.acceptSymbol _) (.inr ⟨1, Nat.le_refl _, fun found => ?_⟩) (.acceptSymbol _)
    (fun found => ?_) ?_
  · split
    · exact .bind_left (.name _) fun _ =>
        .bind_right ((Takes.symbol _).mono (Nat.zero_le _)) fun _ => .pure _
    · exact .bind_left (.name _) fun _ => .pure _
  · split
    · exact .bind (.name _) fun _ => .bind (.symbol _) fun _ => .pure _
    · exact .bind (.name _) fun _ => .pure _
  · rintro vs found _ rfl
    split
    · refine .bind (.name _) (.inl (Nat.le_refl _)) (.name _)
        (fun _ => .bind (.symbol _) fun _ => .pure _) ?_
      rintro us ⟨name, t⟩ ⟨_, t'⟩ ⟨-, rfl, -⟩
      refine .bind (.symbol _) (.inl (Nat.le_refl _)) (.symbol _) (fun _ => .pure _) ?_
      intro _ _ _ _
      exact .pure rfl
    · refine .bind (.name _) (.inl (Nat.le_refl _)) (.name _) (fun _ => .pure _) ?_
      rintro us ⟨name, t⟩ ⟨_, t'⟩ ⟨-, rfl, -⟩
      exact .pure rfl

/-- The name of an option is read again as itself. -/
theorem replays_readOptionName :
    Replays source source' p q 1 (Outcome.value Eq) readOptionName readOptionName := by
  refine .bind replays_readBareName (.inl (Nat.zero_le _)) passes_readBareName
    (fun bare => .iterate passes_subfieldStep bare) ?_
  rintro vs bare _ rfl
  refine .iterate (I := Outcome.value Eq) passes_subfieldStep ?_ rfl
  rintro us name _ rfl
  refine .bind (.accept _) (.inl (Nat.le_refl _)) (.accept _) (fun _ => .pure _) ?_
  rintro xs _ _ (⟨rfl, rfl, -⟩ | ⟨⟨sub, t⟩, ⟨_, u⟩, rfl, rfl, -, rfl, -⟩)
  · exact .pure (.inr ⟨_, _, rfl, rfl, rfl⟩)
  · exact .pure (.inl ⟨_, _, rfl, rfl, rfl⟩)

end FlagSchema
