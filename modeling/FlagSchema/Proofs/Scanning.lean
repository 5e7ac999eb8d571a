import FlagSchema.Proofs.Slices

/-!
# Scanning step by step

A text is scanned in steps, each of which passes blanks and a token behind them, until nothing is left or no token
starts. Every step takes at least one character and cuts its token out of the source, also if a later one fails.

* **`Cursor.step`**: a step; **`Cursor.scan_of_step`**: scanning is made of steps.
* **`Cursor.Runs`**: steps in a row; **`Cursor.exists_runs`**: they come to an end, and to the result.
* **`Cursor.Passes`**: what a step passes.
* **`ScansWithin`**, **`scansWithin`**: the scanner stays within its source.
-/

namespace FlagSchema.Token

/-- How far the scanner has come: the place, and what is left of the text. -/
structure Cursor where
  place : Place := {}
  rest  : List Char

namespace Cursor

-- ── Steps ────────────────────────────────────────────────────────────────────────

/-- The next token and the cursor behind it; nothing at the end of the text; a fault, where no token starts. -/
def step (c : Cursor) : Except (Position × Fault) (Option (Token × Cursor)) :=
  let start := c.place.after (c.rest.takeWhile Text.isBlank)
  match c.rest.dropWhile Text.isBlank with
  | []        => .ok none
  | x :: rest =>
    match Lexeme.first x rest with
    | .error fault => .error (start.position, fault)
    | .ok l        => .ok (some (l.at start, ⟨start.after l.spelling, l.rest⟩))

variable {c c' : Cursor} {t : Token} {ts : List Token} {source : List Char}

/-- A step that finds a token finds a word behind blanks, in front of what it leaves. -/
theorem exists_word_of_step (h : c.step = .ok (some (t, c'))) :
    ∃ w : Word, w.blank.all Text.isBlank = true ∧ w.Leads c'.rest ∧ c.rest = w.text ++ c'.rest ∧
      t = w.token c.place ∧ c'.place = c.place.after w.text := by
  unfold step at h
  dsimp only at h
  split at h
  · cases h
  · next x rest hdrop =>
      split at h
      · cases h
      · next l hfirst =>
          cases h
          refine ⟨⟨c.rest.takeWhile Text.isBlank, l.spelling, l.kind⟩, List.all_takeWhile,
            Word.leads_of_first hfirst _, ?_, ?_, ?_⟩
          · rw [Word.text, List.append_assoc, Lexeme.first_append hfirst, ← hdrop,
              List.takeWhile_append_dropWhile]
          · rw [Lexeme.at, Word.token, Word.text, Place.after_append]
          · rw [Word.text, Place.after_append]

/-- Scanning goes on behind a token that a step finds. -/
theorem scan_of_step (h : c.step = .ok (some (t, c'))) :
    scan c.place c.rest = (scan c'.place c'.rest).map (t :: ·) := by
  obtain ⟨w, hblank, hleads, hrest, rfl, hplace⟩ := exists_word_of_step h
  rw [hrest, hplace]
  exact scan_word c.place hblank hleads

/-- It ends where a step finds nothing. -/
theorem scan_of_step_none (h : c.step = .ok none) : scan c.place c.rest = .ok [] := by
  unfold step at h
  dsimp only at h
  split at h
  · next hdrop =>
      refine scan_blanks c.place ?_
      simpa [List.dropWhile_eq_nil_iff] using hdrop
  · split at h <;> cases h

/-- It fails where a step does. -/
theorem scan_of_step_error {e : Position × Fault} (h : c.step = .error e) : scan c.place c.rest = .error e := by
  unfold step at h
  dsimp only at h
  split at h
  · cases h
  · next x rest hdrop =>
      split at h
      · next fault hfirst =>
          cases h
          rw [scan]
          split
          · next hnil => rw [hdrop] at hnil; cases hnil
          · next x' rest' hcons =>
              rw [hdrop] at hcons
              cases hcons
              split
              · next fault' hfault => rw [hfirst] at hfault; cases hfault; rfl
              · next l hl => rw [hfirst] at hl; cases hl
      · cases h

-- ── What a step passes ───────────────────────────────────────────────────────────

/-- A cursor stands in a source, behind the characters that it has passed. -/
def In (source : List Char) (c : Cursor) : Prop :=
  ∃ front, source = front ++ c.rest ∧ c.place = ({} : Place).after front

/-- What a step passes: at least one character, and a token that is cut out of the source behind the cursor, up to
    where the next one stands. -/
structure Passes (source : List Char) (c : Cursor) (t : Token) (c' : Cursor) : Prop where
  inside   : c'.In source
  consumes : c'.rest.length < c.rest.length
  starts   : c.place.offset ≤ t.span.start
  stops    : t.span.stop = c'.place.offset
  slice    : ∃ spelling, Text.slice? source t.span = some spelling ∧ spelling ≠ [] ∧ t.kind.Written spelling

/-- **A step that finds a token passes it.** -/
theorem In.passes (hc : c.In source) (h : c.step = .ok (some (t, c'))) : c.Passes source t c' := by
  obtain ⟨front, hsource, hplace⟩ := hc
  obtain ⟨w, -, hleads, hrest, rfl, hplace'⟩ := exists_word_of_step h
  obtain ⟨x, xs, hspelling, -⟩ := hleads.graphic
  have hcut : source = (front ++ w.blank) ++ w.spelling ++ c'.rest := by
    rw [hsource, hrest, Word.text]
    simp only [List.append_assoc]
  refine ⟨⟨front ++ w.text, ?_, ?_⟩, ?_, ?_, ?_, w.spelling, ?_, ?_, hleads.written⟩
  · rw [hsource, hrest, List.append_assoc]
  · rw [hplace', hplace, Place.after_append]
  · rw [hrest, List.length_append]
    exact Nat.lt_add_of_pos_left (List.length_pos_iff.mpr hleads.text_ne_nil)
  · rw [Word.start_token, Place.offset_after]
    exact Nat.le_add_right _ _
  · rw [Word.stop_token, hplace']
  · have hspan : (w.token c.place).span =
        ⟨Text.byteSize (front ++ w.blank), Text.byteSize (front ++ w.blank ++ w.spelling)⟩ := by
      rw [hplace, List.append_assoc front, ← Word.text, ← offset_after_start, ← offset_after_start,
        Place.after_append, Place.after_append]
      rfl
    rw [hspan, hcut]
    exact Text.slice?_append ..
  · rw [hspelling]
    exact List.cons_ne_nil _ _

-- ── Steps in a row ───────────────────────────────────────────────────────────────

/-- Steps in a row, with the tokens that they find. -/
inductive Runs : Cursor → List Token → Cursor → Prop where
  | done (c : Cursor) : Runs c [] c
  | step {c c₁ c' : Cursor} {t : Token} {ts : List Token} (h : c.step = .ok (some (t, c₁)))
      (hrest : Runs c₁ ts c') : Runs c (t :: ts) c'

/-- Steps in a row stay in the source. -/
theorem Runs.inside (h : Runs c ts c') (hc : c.In source) : c'.In source := by
  induction h with
  | done => exact hc
  | step h _ ih => exact ih (hc.passes h).inside

/-- Every step in a row takes a character. -/
theorem Runs.length_le (h : Runs c ts c') (hc : c.In source) : ts.length + c'.rest.length ≤ c.rest.length := by
  induction h with
  | done => exact (Nat.zero_add _).le
  | @step c c₁ c' t ts h _ ih =>
      have hpasses := hc.passes h
      have hle := ih hpasses.inside
      have hlt := hpasses.consumes
      rw [List.length_cons]
      omega

/-- **Scanning comes to an end**: after steps in a row at the end of the text, or where no token starts. -/
theorem exists_runs (hc : c.In source) :
    ∃ ts c', Runs c ts c' ∧ ((c'.step = .ok none ∧ scan c.place c.rest = .ok ts) ∨
      ∃ e, c'.step = .error e ∧ scan c.place c.rest = .error e) := by
  induction hn : c.rest.length using Nat.strong_induction_on generalizing c with
  | _ n ih =>
  cases hstep : c.step with
  | error e => exact ⟨[], c, .done c, .inr ⟨e, hstep, scan_of_step_error hstep⟩⟩
  | ok found =>
      cases found with
      | none => exact ⟨[], c, .done c, .inl ⟨hstep, scan_of_step_none hstep⟩⟩
      | some found =>
          obtain ⟨t, c₁⟩ := found
          have hpasses := hc.passes hstep
          obtain ⟨ts, c', hruns, hend⟩ := ih _ (hn ▸ hpasses.consumes) hpasses.inside rfl
          refine ⟨t :: ts, c', .step hstep hruns, ?_⟩
          rw [scan_of_step hstep]
          rcases hend with ⟨hend, hscan⟩ | ⟨e, hend, hscan⟩
          · exact .inl ⟨hend, by rw [hscan]; rfl⟩
          · exact .inr ⟨e, hend, by rw [hscan]; rfl⟩

end Cursor

/-- The scanner stays within a source. It comes to a result, after no more steps than there are characters: the tokens
    found or, where no token starts, a fault. And each step that finds a token, whatever comes after it, takes a
    character and cuts the token out of the source. -/
structure ScansWithin (source : String) : Prop where
  ends  : ∃ ts c, Cursor.Runs ⟨{}, source.toList⟩ ts c ∧ ts.length ≤ source.toList.length ∧
    ((c.step = .ok none ∧ tokenize source = .ok ts) ∨ ∃ e, c.step = .error e ∧ tokenize source = .error e)
  steps : ∀ ts c, Cursor.Runs ⟨{}, source.toList⟩ ts c →
    ∀ t c', c.step = .ok (some (t, c')) → c.Passes source.toList t c'

/-- **The scanner stays within every source.** -/
theorem scansWithin (source : String) : ScansWithin source := by
  have hstart : Cursor.In source.toList ⟨{}, source.toList⟩ := ⟨[], rfl, rfl⟩
  refine ⟨?_, fun ts c hruns t c' hstep => (hruns.inside hstart).passes hstep⟩
  obtain ⟨ts, c, hruns, hend⟩ := Cursor.exists_runs hstart
  have hle := hruns.length_le hstart
  exact ⟨ts, c, hruns, Nat.le_of_add_right_le hle, hend⟩

end FlagSchema.Token
