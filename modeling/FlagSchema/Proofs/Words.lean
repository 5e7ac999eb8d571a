import Mathlib.Data.List.TakeWhile
import FlagSchema.Token.Scan

/-!
# The words of a text

A text as the scanner cuts it: words, each a token with the blanks in front of it, and blanks at the
end. Words do not know where they stand, so they can be moved, and the tokens are the words put at a
place.

* **`Word.Leads`**: a word is what the scanner finds in front of a given rest.
* **`Reads`**: a list of words is what it finds, one after another.
* **`scan_words`**, **`exists_words_of_scan`**: scanning a text and cutting it into words are the same.
-/

namespace FlagSchema.Token

/-- A token without its place: the blanks in front of it, its spelling and its kind. -/
structure Word where
  blank    : List Char
  spelling : List Char
  kind     : Kind
  deriving DecidableEq, Repr, Inhabited

namespace Word

/-- The characters of a word. -/
def text (w : Word) : List Char := w.blank ++ w.spelling

/-- The token that a word is behind a place. -/
def token (p : Place) (w : Word) : Token :=
  { kind     := w.kind
    span     := ⟨(p.after w.blank).offset, (p.after w.text).offset⟩
    position := (p.after w.blank).position }

/-- The scanner finds the spelling of a word, and no more, in front of `rest`. -/
def Leads (w : Word) (rest : List Char) : Prop :=
  ∃ c cs, w.spelling = c :: cs ∧
    Lexeme.first c (cs ++ rest) = .ok ⟨w.kind, w.spelling, rest⟩

@[simp] theorem token_kind (p : Place) (w : Word) : (w.token p).kind = w.kind := rfl

theorem start_token (p : Place) (w : Word) : (w.token p).span.start = (p.after w.blank).offset := rfl

theorem stop_token (p : Place) (w : Word) : (w.token p).span.stop = (p.after w.text).offset := rfl

end Word

/-- The characters of several words. -/
def textOf (ws : List Word) : List Char := ws.flatMap Word.text

@[simp] theorem textOf_nil : textOf [] = [] := rfl

@[simp] theorem textOf_cons (w : Word) (ws : List Word) : textOf (w :: ws) = w.text ++ textOf ws := rfl

@[simp] theorem textOf_append (ws vs : List Word) : textOf (ws ++ vs) = textOf ws ++ textOf vs :=
  List.flatMap_append

/-- The tokens that words are behind a place. -/
def placed (p : Place) : List Word → List Token
  | []      => []
  | w :: ws => w.token p :: placed (p.after w.text) ws

@[simp] theorem placed_nil (p : Place) : placed p [] = [] := rfl

@[simp] theorem placed_cons (p : Place) (w : Word) (ws : List Word) :
    placed p (w :: ws) = w.token p :: placed (p.after w.text) ws := rfl

theorem placed_append (p : Place) (ws vs : List Word) :
    placed p (ws ++ vs) = placed p ws ++ placed (p.after (textOf ws)) vs := by
  induction ws generalizing p with
  | nil => rfl
  | cons w ws ih =>
      rw [List.cons_append, placed_cons, ih, placed_cons, textOf_cons, Place.after_append]
      rfl

@[simp] theorem length_placed (p : Place) (ws : List Word) : (placed p ws).length = ws.length := by
  induction ws generalizing p with
  | nil => rfl
  | cons w ws ih => rw [placed_cons, List.length_cons, ih, List.length_cons]

theorem map_kind_placed (p : Place) (ws : List Word) : (placed p ws).map Token.kind = ws.map Word.kind := by
  induction ws generalizing p with
  | nil => rfl
  | cons w ws ih => rw [placed_cons, List.map_cons, List.map_cons, ih, Word.token_kind]

/-- The scanner finds the words, one after another and each behind blanks, in front of `rest`. -/
def Reads (rest : List Char) : List Word → Prop
  | []      => True
  | w :: ws => w.blank.all Text.isBlank = true ∧ w.Leads (textOf ws ++ rest) ∧ Reads rest ws

@[simp] theorem reads_nil (rest : List Char) : Reads rest [] := trivial

theorem reads_append {rest : List Char} {ws vs : List Word} :
    Reads rest (ws ++ vs) ↔ Reads (textOf vs ++ rest) ws ∧ Reads rest vs := by
  induction ws with
  | nil => simp
  | cons w ws ih =>
      show (_ ∧ w.Leads (textOf (ws ++ vs) ++ rest) ∧ Reads rest (ws ++ vs)) ↔ (_ ∧ _ ∧ _) ∧ _
      rw [ih, textOf_append, List.append_assoc]
      exact ⟨fun ⟨hb, hl, hws, hvs⟩ => ⟨⟨hb, hl, hws⟩, hvs⟩,
        fun ⟨⟨hb, hl, hws⟩, hvs⟩ => ⟨hb, hl, hws, hvs⟩⟩

-- ── Blanks start no token ────────────────────────────────────────────────────────

/-- A character that ASCII prints, the space not counted. -/
def Graphic (c : Char) : Prop := 0x21 ≤ c.toNat ∧ c.toNat ≤ 0x7e

instance (c : Char) : Decidable (Graphic c) := inferInstanceAs (Decidable (_ ∧ _))

theorem Graphic.isBlank_eq_false {c : Char} (h : Graphic c) : Text.isBlank c = false := by
  obtain ⟨h1, h2⟩ := h
  simp [Text.isBlank]
  omega

/-- Where ASCII has its letters. -/
theorem isAlpha_bounds {c : Char} (h : c.isAlpha = true) :
    (65 ≤ c.toNat ∧ c.toNat ≤ 90) ∨ (97 ≤ c.toNat ∧ c.toNat ≤ 122) := by
  have halpha : c.isAlpha = (c.isUpper || c.isLower) := rfl
  rw [halpha, Bool.or_eq_true] at h
  rcases h with hupper | hlower
  · exact .inl (of_decide_eq_true hupper)
  · obtain ⟨hfirst, hlast⟩ := Bool.and_eq_true_iff.mp hlower
    exact .inr ⟨of_decide_eq_true hfirst, of_decide_eq_true hlast⟩

/-- Where ASCII has its digits. -/
theorem isDigit_bounds {c : Char} (h : c.isDigit = true) : 48 ≤ c.toNat ∧ c.toNat ≤ 57 := by
  obtain ⟨hfirst, hlast⟩ := Bool.and_eq_true_iff.mp h
  exact ⟨of_decide_eq_true hfirst, of_decide_eq_true hlast⟩

theorem graphic_of_isNameChar {c : Char} (h : isNameChar c = true) : Graphic c := by
  simp only [isNameChar, Char.isAlphanum, Bool.or_eq_true, beq_iff_eq] at h
  unfold Graphic
  rcases h with (h | h) | rfl
  · have hc := isAlpha_bounds h
    omega
  · have hc := isDigit_bounds h
    omega
  · decide

theorem isNameChar_of_isNameStart {c : Char} (h : isNameStart c = true) : isNameChar c = true := by
  simp only [isNameStart, Bool.or_eq_true] at h
  rcases h with h | h
  · simp [isNameChar, Char.isAlphanum, h]
  · simp [isNameChar, h]

theorem isNameChar_of_isDigit {c : Char} (h : c.isDigit = true) : isNameChar c = true := by
  simp [isNameChar, Char.isAlphanum, h]

theorem graphic_of_isPunctuation {c : Char} (h : isPunctuation c = true) : Graphic c := by
  simp only [isPunctuation, Bool.and_eq_true, decide_eq_true_eq] at h
  exact h.1

/-- Every token starts with a graphic character. -/
theorem graphic_of_first {c : Char} {cs : List Char} {l : Lexeme}
    (h : Lexeme.first c cs = .ok l) : Graphic c := by
  unfold Lexeme.first at h
  split at h
  · next hc => rw [hc.1]; decide
  split at h
  · next hc => rw [hc.1]; decide
  split at h
  · next hc =>
      rcases hc with hc | hc
      · exact graphic_of_isNameChar (isNameChar_of_isDigit hc)
      · rw [hc.1]; decide
  split at h
  · next hc =>
      rcases hc with hc | hc
      · exact graphic_of_isNameChar (isNameChar_of_isNameStart hc)
      · rw [hc.1]; decide
  split at h
  · next hc => rcases hc with rfl | rfl <;> decide
  split at h
  · next hc => exact graphic_of_isPunctuation hc
  · cases h

theorem Word.Leads.graphic {w : Word} {rest : List Char} (h : w.Leads rest) :
    ∃ c cs, w.spelling = c :: cs ∧ Graphic c := by
  obtain ⟨c, cs, hw, hf⟩ := h
  exact ⟨c, cs, hw, graphic_of_first hf⟩

theorem Word.Leads.text_ne_nil {w : Word} {rest : List Char} (h : w.Leads rest) : w.text ≠ [] := by
  obtain ⟨c, cs, hw, -⟩ := h
  rw [Word.text, hw]
  exact List.append_ne_nil_of_right_ne_nil _ (List.cons_ne_nil _ _)

/-- A word that is written as one character has no blanks in front of it. -/
theorem Word.Leads.spelling_of_text {w : Word} {rest : List Char} {c : Char} (h : w.Leads rest)
    (hw : w.text = [c]) : w.spelling = [c] := by
  obtain ⟨d, cs, hd, -⟩ := h
  rw [Word.text, List.append_eq_singleton_iff] at hw
  rcases hw with ⟨-, hw⟩ | ⟨-, hw⟩
  · exact hw
  · rw [hd] at hw; cases hw

-- ── Scanning ─────────────────────────────────────────────────────────────────────

/-- Blanks alone hold no token. -/
theorem scan_blanks (p : Place) {cs : List Char} (h : cs.all Text.isBlank = true) :
    scan p cs = .ok [] := by
  have hdrop : cs.dropWhile Text.isBlank = [] := List.dropWhile_eq_nil_iff.mpr (by simpa using h)
  rw [scan]
  split
  · rfl
  · next heq => rw [hdrop] at heq; cases heq

/-- The scanner finds the word that leads behind blanks, and goes on behind it. -/
theorem scan_word (p : Place) {w : Word} {rest : List Char}
    (hb : w.blank.all Text.isBlank = true) (hl : w.Leads rest) :
    scan p (w.text ++ rest) = (scan (p.after w.text) rest).map (w.token p :: ·) := by
  obtain ⟨c, cs, hw, hf⟩ := hl
  have hblank : ∀ x ∈ w.blank, Text.isBlank x = true := by simpa using hb
  have hc : Text.isBlank c = false := (graphic_of_first hf).isBlank_eq_false
  have htext : w.text ++ rest = w.blank ++ c :: (cs ++ rest) := by
    rw [Word.text, hw, List.append_assoc, List.cons_append]
  have htake : (w.text ++ rest).takeWhile Text.isBlank = w.blank := by
    rw [htext, List.takeWhile_append_of_pos hblank, List.takeWhile_cons_of_neg (by simp [hc]),
      List.append_nil]
  have hdrop : (w.text ++ rest).dropWhile Text.isBlank = c :: (cs ++ rest) := by
    rw [htext, List.dropWhile_append_of_pos hblank, List.dropWhile_cons_of_neg (by simp [hc])]
  rw [scan]
  split
  · next heq => rw [hdrop] at heq; cases heq
  · next c' rest' heq =>
      rw [hdrop, List.cons.injEq] at heq
      obtain ⟨rfl, rfl⟩ := heq
      split
      · next heq => rw [hf] at heq; cases heq
      · next l heq =>
          rw [hf] at heq
          cases heq
          rw [htake, ← Place.after_append]
          have htoken : (⟨w.kind, w.spelling, rest⟩ : Lexeme).at (p.after w.blank) = w.token p := by
            rw [Lexeme.at, Word.token, Word.text, Place.after_append]
          rw [htoken]
          rfl

/-- Scanning words gives them at their places, and then what the rest gives. -/
theorem scan_textOf (p : Place) {ws : List Word} {rest : List Char} (h : Reads rest ws) :
    scan p (textOf ws ++ rest)
      = (scan (p.after (textOf ws)) rest).map (placed p ws ++ ·) := by
  induction ws generalizing p with
  | nil =>
      show scan p rest = (scan p rest).map id
      cases scan p rest <;> rfl
  | cons w ws ih =>
      obtain ⟨hb, hl, hws⟩ := h
      rw [textOf_cons, List.append_assoc, scan_word p hb hl, ih _ hws, Place.after_append]
      cases scan ((p.after w.text).after (textOf ws)) rest <;> rfl

/-- The spelling of a word that leads is a token of its own. -/
theorem Word.Leads.scan_spelling {w : Word} {rest : List Char} (h : w.Leads rest) (p : Place) :
    scan p (w.spelling ++ rest)
      = (scan (p.after w.spelling) rest).map
          (⟨w.kind, ⟨p.offset, p.offset + Text.byteSize w.spelling⟩, p.position⟩ :: ·) := by
  have hscan := scan_word p (w := { w with blank := [] }) rfl h
  rwa [Word.token, Word.text, List.nil_append, Place.after_nil, Place.offset_after] at hscan

/-- Words with blanks behind them are scanned to the end. -/
theorem scan_words (p : Place) {ws : List Word} {tail : List Char}
    (h : Reads tail ws) (ht : tail.all Text.isBlank = true) :
    scan p (textOf ws ++ tail) = .ok (placed p ws) := by
  rw [scan_textOf p h, scan_blanks _ ht]
  show Except.ok (placed p ws ++ []) = _
  rw [List.append_nil]

/-- A lexeme is a word behind any blanks, in front of what it leaves. -/
theorem Word.leads_of_first {c : Char} {cs : List Char} {l : Lexeme} (h : Lexeme.first c cs = .ok l)
    (blank : List Char) : Word.Leads ⟨blank, l.spelling, l.kind⟩ l.rest := by
  have happ := Lexeme.first_append h
  cases hsp : l.spelling with
  | nil =>
      have hlt := Lexeme.length_rest_lt h
      rw [← happ, hsp, List.nil_append] at hlt
      exact absurd hlt (Nat.lt_irrefl _)
  | cons d ds =>
      rw [hsp, List.cons_append, List.cons.injEq] at happ
      obtain ⟨rfl, rfl⟩ := happ
      refine ⟨d, ds, rfl, ?_⟩
      rw [h, ← hsp]

/-- Every text that is scanned to the end is made of words. -/
theorem exists_words_of_scan {p : Place} {cs : List Char} {ts : List Token}
    (h : scan p cs = .ok ts) :
    ∃ ws tail, cs = textOf ws ++ tail ∧ tail.all Text.isBlank = true ∧ Reads tail ws ∧
      placed p ws = ts := by
  fun_induction scan p cs generalizing ts with
  | case1 p cs hdrop =>
      cases h
      exact ⟨[], cs, rfl, by simpa [List.dropWhile_eq_nil_iff] using hdrop, reads_nil _, rfl⟩
  | case2 => cases h
  | case3 p cs start c rest hdrop l hl _ =>
      rename_i ih
      obtain ⟨us, hus, rfl⟩ : ∃ us, scan (start.after l.spelling) l.rest = .ok us ∧
          l.at start :: us = ts := by
        cases hs : scan (start.after l.spelling) l.rest with
        | error e => rw [hs] at h; cases h
        | ok us => rw [hs] at h; cases h; exact ⟨us, rfl, rfl⟩
      obtain ⟨ws, tail, hrest, htail, hreads, hplaced⟩ := ih hus
      have htext : cs = cs.takeWhile Text.isBlank ++ (l.spelling ++ l.rest) := by
        rw [Lexeme.first_append hl, ← hdrop, List.takeWhile_append_dropWhile]
      refine ⟨⟨cs.takeWhile Text.isBlank, l.spelling, l.kind⟩ :: ws, tail, ?_, htail, ?_, ?_⟩
      · rw [textOf_cons, Word.text, List.append_assoc, List.append_assoc, ← hrest]
        exact htext
      · refine ⟨List.all_takeWhile, ?_, hreads⟩
        rw [← hrest]
        exact Word.leads_of_first hl _
      · rw [placed_cons, Word.text, Place.after_append, hplaced]
        congr 1
        rw [Word.token, Lexeme.at, Word.text, Place.after_append]

end FlagSchema.Token
