import FlagSchema.Proofs.Boundaries
import FlagSchema.Proofs.Places

/-!
# Tokens tile their source

The tokens of a source cut it into spellings and blanks. Offsets, lines and columns are counted apart
from one another while the text is scanned; here each is read off the characters in front of a token.

* **`Place.position_after`**: lines and columns by the line feeds passed.
* **`Kind.Written`**: a kind says what the characters that spell it say.
* **`Tiles`**: spans in order, the source cut at each of them, blanks everywhere else.
* **`tokenize_tiles`**: the tokens of a source tile it.
-/

namespace FlagSchema

-- ── Positions ────────────────────────────────────────────────────────────────────

/-- The position behind the characters of a text: a line for each line feed, a column for each character
    behind the last one. -/
def Position.behind (cs : List Char) : Position :=
  ⟨1 + cs.count '\n', 1 + (cs.rtakeWhile (· ≠ '\n')).length⟩

/-- **Lines and columns count the characters passed.** -/
theorem Place.position_after (cs : List Char) :
    (({} : Place).after cs).position = .behind cs := by
  induction cs using List.reverseRecOn with
  | nil => rfl
  | append_singleton cs c ih =>
      obtain ⟨hline, hcolumn⟩ := Position.mk.inj ih
      rw [after_append, after_cons, after_nil, position, next, Position.behind]
      by_cases hc : c = '\n'
      · subst hc
        rw [if_pos rfl, List.rtakeWhile_concat_neg _ _ _ (by decide), List.count_append]
        show Position.mk ((({} : Place).after cs).line + 1) 1 = _
        rw [hline]
        rfl
      · rw [if_neg hc, List.rtakeWhile_concat_pos _ _ _ (by simpa using hc), List.count_append,
          List.count_singleton, if_neg (by simpa using hc), List.length_append]
        show Position.mk (({} : Place).after cs).line ((({} : Place).after cs).column + 1) = _
        rw [hline, hcolumn]
        rfl

namespace Token

-- ── Payloads ─────────────────────────────────────────────────────────────────────

/-- A kind of token and the characters that spell it: they are the payload, apart from the blanks at the
    end of a line comment and from the quotes and escapes of a string. -/
inductive Kind.Written : Kind → List Char → Prop where
  | ident (cs : List Char) : Written (.ident (String.ofList cs)) cs
  | int (cs : List Char) : Written (.int (String.ofList cs)) cs
  | float (cs : List Char) : Written (.float (String.ofList cs)) cs
  | symbol (c : Char) : Written (.symbol c) [c]
  | lineComment (cs : List Char) :
      Written (.comment (String.ofList (Text.trimEnd ('/' :: '/' :: cs)))) ('/' :: '/' :: cs)
  | blockComment (cs : List Char) :
      Written (.comment (String.ofList ('/' :: '*' :: cs))) ('/' :: '*' :: cs)
  | str (quote : Char) (cs value : List Char) (hquote : quote = '"' ∨ quote = '\'')
      (hvalue : cutString? quote cs = some (value, cs, [])) :
      Written (.str (String.ofList value)) (quote :: cs)

/-- What the scanner finds is written as it says. -/
theorem Word.Leads.written {w : Word} {rest : List Char} (h : w.Leads rest) :
    w.kind.Written w.spelling := by
  cases h.form with
  | lineComment cs spelling kind => rw [kind, spelling]; exact .lineComment cs
  | blockComment cs spelling kind => rw [kind, spelling]; exact .blockComment cs
  | number c cs isFloat spelling start kind =>
      rw [kind]
      cases isFloat with
      | true => exact .float _
      | false => exact .int _
  | name c cs spelling start kind => rw [kind]; exact .ident _
  | string quote cs value spelling start kind ends =>
      have halone := string_stays ends []
      rw [List.append_nil] at halone
      rw [kind, spelling]
      exact .str quote cs value start halone
  | symbol c spelling kind => rw [kind, spelling]; exact .symbol c

-- ── Tokens in a source ───────────────────────────────────────────────────────────

/-- A token cuts a source in three: what stands before it, its spelling, and what follows. -/
structure Cuts (source : List Char) (t : Token) (before spelling after : List Char) : Prop where
  text     : source = before ++ spelling ++ after
  span     : t.span = ⟨Text.byteSize before, Text.byteSize (before ++ spelling)⟩
  position : t.position = .behind before
  slice    : Text.slice source t.span = spelling
  ne_nil   : spelling ≠ []
  written  : t.kind.Written spelling

/-- Tokens tile a source: their spans are in order and do not overlap, each cuts the source at the
    boundaries of characters, and every byte outside of them belongs to a blank. -/
structure Tiles (source : List Char) (ts : List Token) : Prop where
  nonempty : ∀ t ∈ ts, t.span.start < t.span.stop
  ordered  : ts.Pairwise fun t u => t.span.stop ≤ u.span.start
  cuts     : ∀ t ∈ ts, ∃ before spelling after, t.Cuts source before spelling after
  blank    : ∀ before c after byte, source = before ++ c :: after → Text.byteSize before ≤ byte →
    byte < Text.byteSize before + c.utf8Size →
    (∀ t ∈ ts, ¬ (t.span.start ≤ byte ∧ byte < t.span.stop)) → Text.isBlank c = true

section Placed

variable {p : Place} {ws : List Word} {t : Token}

/-- A token of words is one of them, behind the others. -/
theorem exists_of_mem_placed (h : t ∈ placed p ws) :
    ∃ us w vs, ws = us ++ w :: vs ∧ t = w.token (p.after (textOf us)) := by
  induction ws generalizing p with
  | nil => cases h
  | cons w ws ih =>
      rcases List.mem_cons.mp h with rfl | h
      · exact ⟨[], w, ws, rfl, rfl⟩
      · obtain ⟨us, v, vs, rfl, rfl⟩ := ih h
        exact ⟨w :: us, v, vs, rfl, by rw [textOf_cons, Place.after_append]⟩

/-- The tokens of words start behind the place where the words do. -/
theorem offset_le_start (h : t ∈ placed p ws) : p.offset ≤ t.span.start := by
  obtain ⟨us, w, vs, -, rfl⟩ := exists_of_mem_placed h
  rw [Word.start_token, Place.offset_after, Place.offset_after]
  omega

/-- They stop in front of the place where the words do. -/
theorem stop_le_offset (h : t ∈ placed p ws) : t.span.stop ≤ (p.after (textOf ws)).offset := by
  obtain ⟨us, w, vs, rfl, rfl⟩ := exists_of_mem_placed h
  rw [Word.stop_token, textOf_append, textOf_cons, Place.after_append, Place.after_append,
    Place.offset_after _ (textOf vs)]
  omega

/-- The tokens of words are in the order of the words. -/
theorem pairwise_placed (p : Place) (ws : List Word) :
    (placed p ws).Pairwise fun t u => t.span.stop ≤ u.span.start := by
  induction ws generalizing p with
  | nil => exact .nil
  | cons w ws ih =>
      refine List.pairwise_cons.mpr ⟨?_, ih _⟩
      intro u hu
      rw [Word.stop_token]
      exact offset_le_start hu

/-- A character of a word that is no blank is in its token. -/
theorem Word.covers {w : Word} {front back : List Char} {c : Char} (hblank : w.blank.all Text.isBlank = true)
    (hw : w.text = front ++ c :: back) (hc : Text.isBlank c = false) :
    (w.token p).span.start ≤ p.offset + Text.byteSize front ∧
      p.offset + Text.byteSize front + c.utf8Size ≤ (w.token p).span.stop := by
  rw [Word.start_token, Word.stop_token, Place.offset_after, Place.offset_after, hw, Text.byteSize_append,
    Text.byteSize]
  refine ⟨?_, by omega⟩
  rw [Word.text, List.append_eq_append_iff] at hw
  rcases hw with ⟨front, rfl, -⟩ | ⟨back, hw, hback⟩
  · rw [Text.byteSize_append]
    omega
  · cases back with
    | nil => rw [hw, List.append_nil]
    | cons d back =>
        -- The character would be one of the blanks.
        obtain ⟨rfl, -⟩ := List.cons.inj hback
        have hmem : c ∈ w.blank := by
          rw [hw]
          exact List.mem_append_right _ (List.mem_cons_self ..)
        rw [List.all_eq_true.mp hblank c hmem] at hc
        cases hc

/-- A character that is no blank belongs to a word. -/
theorem exists_covering {before after tail : List Char} {c : Char} (hreads : Reads tail ws)
    (htail : tail.all Text.isBlank = true) (h : textOf ws ++ tail = before ++ c :: after)
    (hc : Text.isBlank c = false) :
    ∃ t ∈ placed p ws, t.span.start ≤ p.offset + Text.byteSize before ∧
      p.offset + Text.byteSize before + c.utf8Size ≤ t.span.stop := by
  induction ws generalizing p before with
  | nil =>
      have hmem : c ∈ tail := by
        rw [textOf_nil, List.nil_append] at h
        rw [h]
        exact List.mem_append_right _ (List.mem_cons_self ..)
      rw [List.all_eq_true.mp htail c hmem] at hc
      cases hc
  | cons w ws ih =>
      obtain ⟨hblank, -, hreads⟩ := hreads
      rw [textOf_cons, List.append_assoc, List.append_eq_append_iff] at h
      -- Either the word ends before the character, or it reaches over it.
      rcases h with ⟨front, rfl, h⟩ | ⟨back, hw, h⟩
      · obtain ⟨t, ht, hstart, hstop⟩ := ih (p := p.after w.text) hreads h
        rw [Place.offset_after] at hstart hstop
        rw [Text.byteSize_append]
        exact ⟨t, List.mem_cons_of_mem _ ht, by omega, by omega⟩
      · cases back with
        | nil =>
            rw [List.append_nil] at hw
            have hrest : textOf ws ++ tail = [] ++ c :: after := h.symm
            obtain ⟨t, ht, hstart, hstop⟩ := ih (p := p.after w.text) hreads hrest
            rw [Place.offset_after, hw] at hstart hstop
            exact ⟨t, List.mem_cons_of_mem _ ht, hstart, hstop⟩
        | cons d back =>
            obtain ⟨rfl, -⟩ := List.cons.inj h
            exact ⟨w.token p, List.mem_cons_self .., w.covers hblank hw hc⟩

end Placed

/-- The tokens of words cut the text of the words. -/
theorem cuts_of_mem_placed {ws : List Word} {tail : List Char} {t : Token} (hreads : Reads tail ws)
    (h : t ∈ placed {} ws) : ∃ before spelling after, t.Cuts (textOf ws ++ tail) before spelling after := by
  obtain ⟨us, w, vs, rfl, rfl⟩ := exists_of_mem_placed h
  have hleads : w.Leads (textOf vs ++ tail) := (reads_append.mp hreads).2.2.1
  obtain ⟨c, cs, hspelling, -⟩ := hleads.graphic
  have hlies : Lies (textOf (us ++ w :: vs) ++ tail) {} (us ++ w :: vs) :=
    ⟨[], tail, rfl, rfl, hreads⟩
  refine ⟨textOf us ++ w.blank, w.spelling, textOf vs ++ tail, ?_, ?_, ?_, hlies.slice_token, ?_,
    hleads.written⟩
  · rw [textOf_append, textOf_cons, Word.text]
    simp only [List.append_assoc]
  · show Span.mk _ _ = _
    rw [← Place.after_append, ← Place.after_append, Place.offset_after, Place.offset_after, Word.text,
      ← List.append_assoc, Nat.zero_add, Nat.zero_add]
  · show Place.position _ = _
    rw [← Place.after_append, Place.position_after]
  · rw [hspelling]
    exact List.cons_ne_nil _ _

/-- The span of a token that cuts a source is not empty. -/
theorem Cuts.start_lt_stop {source before spelling after : List Char} {t : Token}
    (h : t.Cuts source before spelling after) : t.span.start < t.span.stop := by
  rw [h.span, Text.byteSize_append]
  exact Nat.lt_add_of_pos_right (Text.byteSize_pos h.ne_nil)

/-- The tokens of words tile the text of the words with blanks behind it. -/
theorem tiles_placed {ws : List Word} {tail : List Char} (hreads : Reads tail ws)
    (htail : tail.all Text.isBlank = true) : Tiles (textOf ws ++ tail) (placed {} ws) := by
  refine ⟨?_, pairwise_placed _ _, fun t ht => cuts_of_mem_placed hreads ht, ?_⟩
  · intro t ht
    obtain ⟨before, spelling, after, hcuts⟩ := cuts_of_mem_placed hreads ht
    exact hcuts.start_lt_stop
  · intro before c after byte hcut hlow hhigh houtside
    by_contra hc
    rw [Bool.not_eq_true] at hc
    obtain ⟨t, ht, hstart, hstop⟩ := exists_covering (p := {}) hreads htail hcut hc
    have hoffset : ({} : Place).offset = 0 := rfl
    rw [hoffset] at hstart hstop
    exact houtside t ht ⟨by omega, by omega⟩

end Token

/-- **The tokens of a source tile it.** -/
theorem tokenize_tiles {source : String} {ts : List Token} (h : tokenize source = .ok ts) :
    Token.Tiles source.toList ts := by
  obtain ⟨ws, tail, hsource, htail, hreads, rfl⟩ := Token.exists_words_of_scan h
  rw [hsource]
  exact Token.tiles_placed hreads htail

/-- A source with characters of several bytes, a comment over two lines, blanks at the end of another, and
    an escaped line feed in a string. -/
def manyLines : String :=
  "a.b // é \n" ++
  "/* 漢\n" ++
  "*/ 0x1F '\\\n' .5"

/-- Its tokens tile it; the last of them stands in the fourth line. -/
theorem tokenize_tiles_manyLines :
    ∃ ts, tokenize manyLines = .ok ts ∧ (ts.getLast?.map Token.position) = some ⟨4, 3⟩ ∧
      Token.Tiles manyLines.toList ts := by
  have hcomputed : (tokenize manyLines).toOption.map (fun ts => ts.getLast?.map Token.position)
      = some (some ⟨4, 3⟩) := by
    rw [tokenize]
    delta manyLines
    simp only [String.toList_append, String.reduceToList]
    decide +kernel
  cases h : tokenize manyLines with
  | error e => rw [h] at hcomputed; cases hcomputed
  | ok ts =>
      rw [h] at hcomputed
      exact ⟨ts, rfl, Option.some.inj hcomputed, tokenize_tiles h⟩

end FlagSchema
