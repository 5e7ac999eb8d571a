import FlagSchema.Proofs.Contents
import FlagSchema.Proofs.Layouts
import FlagSchema.Proofs.LineBreaks
import FlagSchema.Proofs.Skipping

/-!
# Insertions between statements and elements

A source can be cut between two statements, or between two elements of a message. What is put there on lines of its
own is read as if the rest were not there, and if it is passed over, the rest is read as before.

* **`Schema.Boundary`**: a place between two statements or two elements.
* **`Schema.exists_boundary_of_advances`**: where a step ends there is one.
* **`Schema.Boundary.exists_cut`**: it cuts the words of the source.
* **`Schema.Cut.rereads_front`**, **`Schema.Cut.rereads_back`**: both parts are read again in another source.
* **`Schema.parse_insert_skipped`**: a construct that is passed over may be inserted, but a block that is not
  closed is an error.
-/

namespace FlagSchema

open Token Reader

-- ── Words on both sides of a line break ──────────────────────────────────────────

namespace Token

variable {p : Place} {b cs ds : List Char} {ws : List Word} {ts us : List Token}

/-- Words in front of blanks are found again in front of the blanks and a line break. -/
theorem reads_of_break (h : Reads (b ++ cs) ws) (hb : b.all Text.isBlank = true) : Reads (b ++ '\n' :: ds) ws := by
  cases b with
  | nil => exact reads_of_lineEnd h (atLineEnd_cons ds)
  | cons c b => exact reads_before_blank h (List.cons_ne_nil c b) hb

/-- The tokens in front of a line break and behind it. -/
theorem scan_of_break (h : Reads (b ++ cs) ws) (hb : b.all Text.isBlank = true)
    (hds : scan ((p.after (textOf ws ++ b)).after ['\n']) ds = .ok us) :
    scan p (textOf ws ++ b ++ '\n' :: ds) = .ok (placed p ws ++ us) := by
  have hgap : (b ++ ['\n']).all Text.isBlank = true := by rw [List.all_append, hb]; rfl
  have hbehind : scan (p.after (textOf ws)) (b ++ ['\n'] ++ ds) = .ok us := by
    refine scan_gap hgap ?_
    rwa [Place.after_append, ← Place.after_append p]
  rw [List.append_assoc, scan_textOf p (reads_of_break h hb)]
  rw [List.append_assoc] at hbehind
  exact congrArg (Except.map _) hbehind

/-- Where tokens are two lists, so are the words. -/
theorem exists_of_placed_eq_append (h : placed p ws = ts ++ us) :
    ∃ vs vs', ws = vs ++ vs' ∧ placed p vs = ts ∧ placed (p.after (textOf vs)) vs' = us := by
  refine ⟨ws.take ts.length, ws.drop ts.length, (List.take_append_drop ..).symm, ?_⟩
  have hlength : (placed p (ws.take ts.length)).length = ts.length := by
    have htotal := congrArg List.length h
    rw [length_placed, List.length_append] at htotal
    rw [length_placed, List.length_take]
    omega
  have hboth : placed p (ws.take ts.length) ++ placed (p.after (textOf (ws.take ts.length))) (ws.drop ts.length) =
      ts ++ us := by
    rw [← placed_append, List.take_append_drop, h]
  exact List.append_inj hboth hlength

/-- Blanks in front of words may be counted to what is in front of them. -/
theorem exists_words_behind {tail : List Char} (hreads : Reads tail ws) (htail : tail.all Text.isBlank = true)
    (htext : b ++ cs = textOf ws ++ tail)
    (hstart : ∀ t ∈ placed p ws, (p.after b).offset ≤ t.span.start) :
    b.all Text.isBlank = true ∧ ∃ vs rest, cs = textOf vs ++ rest ∧ rest.all Text.isBlank = true ∧
      Reads rest vs ∧ placed (p.after b) vs = placed p ws := by
  cases ws with
  | nil =>
      rw [textOf_nil, List.nil_append] at htext
      rw [← htext, List.all_append, Bool.and_eq_true] at htail
      exact ⟨htail.1, [], cs, rfl, htail.2, reads_nil _, rfl⟩
  | cons w ws =>
      obtain ⟨hblank, hleads, hws⟩ := hreads
      have hoffset := hstart _ (List.mem_cons_self ..)
      rw [Word.start_token, Place.offset_after, Place.offset_after] at hoffset
      rw [textOf_cons, Word.text, List.append_assoc, List.append_assoc] at htext
      obtain ⟨blank, hw⟩ := Text.prefix_of_byteSize_le ⟨cs, htext⟩ (List.prefix_append w.blank _) (by omega)
      rw [← hw, List.all_append, Bool.and_eq_true] at hblank
      rw [← hw, List.append_assoc] at htext
      refine ⟨hblank.1, { w with blank } :: ws, tail, ?_, htail, ⟨hblank.2, hleads, hws⟩, ?_⟩
      · rw [List.append_cancel_left htext, textOf_cons, Word.text]
        simp only [List.append_assoc]
      · rw [placed_cons, placed_cons, Word.token, Word.token, Word.text, Word.text, ← hw]
        simp only [Place.after_append]

end Token

namespace Schema

open Progress

-- ── Boundaries ───────────────────────────────────────────────────────────────────

/-- A place between two statements, or between two elements of a message: no token reaches over it, and the tokens in
    front of it are read in steps, up to the last of them. -/
structure Boundary (source : String) (before after : List Char) (a : Progress) : Prop where
  text    : source.toList = before ++ after
  reached : ∃ ts us n s, tokenize source = .ok (ts ++ us) ∧ (∀ t ∈ ts, t.span.stop ≤ Text.byteSize before) ∧
    (∀ t ∈ us, Text.byteSize before ≤ t.span.start) ∧
    advances source.toList n {} (Stream.ofTokens ts) = .ok (a, s) ∧ s.tokens = []

/-- What is read in so many steps of the first tokens of a source, if they lead to a boundary. -/
def boundary? (before after : List Char) (steps count : Nat) : Option Progress :=
  match scan {} (before ++ after) with
  | .error _ => none
  | .ok ts   =>
    match advances (before ++ after) steps {} (Stream.ofTokens (ts.take count)) with
    | .error _   => none
    | .ok (a, s) =>
      if s.tokens = [] ∧ (∀ t ∈ ts.take count, t.span.stop ≤ Text.byteSize before) ∧
          ∀ t ∈ ts.drop count, Text.byteSize before ≤ t.span.start then some a
      else none

theorem boundary_of_boundary? {before after : List Char} {steps count : Nat} {a : Progress}
    (h : boundary? before after steps count = some a) : Boundary (String.ofList (before ++ after)) before after a := by
  rw [boundary?] at h
  split at h
  · cases h
  · next ts hts =>
      split at h
      · cases h
      · next a' s hrun =>
          split at h
          · next hends =>
              cases h
              refine ⟨String.toList_ofList, ts.take count, ts.drop count, steps, s, ?_, hends.2.1, hends.2.2, ?_,
                hends.1⟩
              · rw [tokenize, String.toList_ofList, List.take_append_drop, hts]
              · rw [String.toList_ofList, hrun]
          · cases h

/-- **Every step ends at a boundary**, with the tokens behind it left to read. -/
theorem exists_boundary_of_advances {source : String} {ts : List Token} {n : Nat} {a : Progress} {s : Stream}
    (h : tokenize source = .ok ts) (hrun : advances source.toList n {} (Stream.ofTokens ts) = .ok (a, s)) :
    ∃ before after b us, Boundary source before after b ∧ a.bare = b.bare ∧
      scan (({} : Place).after before) after = .ok us ∧ s.tokens = significant us := by
  obtain ⟨ws, tail, hsource, htail, hreads, rfl⟩ := exists_words_of_scan h
  have hcopied : Copied source.toList source.toList _ s (advances source.toList n {}) _ := copies_advances n rfl hrun
  obtain ⟨front, back, rfl, hholds, hagain⟩ := hcopied (holds_ofTokens hreads hsource)
  obtain ⟨hfront, hback⟩ := reads_append.mp hreads
  rw [textOf_append, List.append_assoc] at hsource
  rw [placed_append] at h
  obtain ⟨b, t, hrun', ht, hb⟩ := hagain (lies_start hsource hfront)
    ((Stream.tokens_ofTokens (placed {} front)).trans (List.append_nil _).symm)
  refine ⟨textOf front, textOf back ++ tail, b, placed (({} : Place).after (textOf front)) back, ⟨hsource, ?_⟩, hb,
    scan_words _ hback htail, hholds.tokens⟩
  refine ⟨placed {} front, _, n, t, h, fun u hu => ?_, fun u hu => ?_, hrun', ht⟩
  · have hstop := stop_le_offset hu
    rwa [offset_after_start] at hstop
  · have hstart := offset_le_start hu
    rwa [offset_after_start] at hstart

/-- The words on both sides of a boundary, with the blanks behind them. -/
structure Cut (source : String) (a : Progress) (front : List Word) (gap : List Char) (back : List Word)
    (tail : List Char) : Prop where
  text    : source.toList = textOf front ++ gap ++ (textOf back ++ tail)
  blank   : gap.all Text.isBlank = true
  ended   : tail.all Text.isBlank = true
  reads   : Reads (gap ++ (textOf back ++ tail)) front
  behind  : Reads tail back
  tokens  : tokenize source = .ok (placed {} front ++ placed (({} : Place).after (textOf front ++ gap)) back)
  reached : ∃ n s, advances source.toList n {} (Stream.ofTokens (placed {} front)) = .ok (a, s) ∧ s.tokens = []

variable {source : String} {before after : List Char} {a : Progress}

/-- **A boundary cuts the words of a source.** -/
theorem Boundary.exists_cut (h : Boundary source before after a) :
    ∃ front gap back tail, before = textOf front ++ gap ∧ after = textOf back ++ tail ∧
      Cut source a front gap back tail := by
  obtain ⟨ts, us, n, s, htokens, hstop, hstart, hrun, hs⟩ := h.reached
  obtain ⟨ws, rest, hsource, hrest, hreads, hplaced⟩ := exists_words_of_scan htokens
  obtain ⟨front, behind, rfl, rfl, rfl⟩ := exists_of_placed_eq_append hplaced
  obtain ⟨hfront, hbehind⟩ := reads_append.mp hreads
  -- The last token in front of the boundary ends there at the latest.
  have hsize : Text.byteSize (textOf front) ≤ Text.byteSize before := by
    rcases List.eq_nil_or_concat' front with rfl | ⟨vs, w, rfl⟩
    · exact Nat.zero_le _
    · have hlast := hstop (w.token (({} : Place).after (textOf vs))) (by rw [placed_append]; simp)
      rw [Word.stop_token, ← Place.after_append, offset_after_start] at hlast
      rwa [textOf_append, textOf_cons, textOf_nil, List.append_nil]
  rw [textOf_append, List.append_assoc] at hsource
  obtain ⟨gap, rfl⟩ := Text.prefix_of_byteSize_le (List.prefix_append (textOf front) _)
    ⟨after, h.text.symm.trans hsource⟩ hsize
  have htext : gap ++ after = textOf behind ++ rest := by
    refine (List.append_right_inj (textOf front)).mp ?_
    rw [← hsource, h.text, List.append_assoc]
  obtain ⟨hgap, back, tail, rfl, htail, hback, hsame⟩ := exists_words_behind hbehind hrest htext fun t ht => by
    rw [← Place.after_append, offset_after_start]
    exact hstart t ht
  refine ⟨front, gap, back, tail, rfl, rfl, h.text, hgap, htail, ?_, hback, ?_, n, s, hrun, hs⟩
  · rwa [htext]
  · rw [htokens, Place.after_append, hsame]

namespace Cut

variable {front back : List Word} {gap tail : List Char}

theorem lies_front (h : Cut source a front gap back tail) : Lies source.toList {} front :=
  lies_start (h.text.trans (List.append_assoc ..)) h.reads

theorem lies_back (h : Cut source a front gap back tail) :
    Lies source.toList (({} : Place).after (textOf front ++ gap)) back :=
  lies_after h.text h.behind

/-- **The words in front of a boundary are read again wherever they stand**, with the same messages open. -/
theorem rereads_front (h : Cut source a front gap back tail) :
    ∃ n, ∀ source', Rereads source' (advances source' n {}) front fun b => a.bare = b.bare := by
  obtain ⟨n, s, hrun, hs⟩ := h.reached
  refine ⟨n, fun source' => ?_⟩
  exact (copies_advances n rfl hrun).rereads ⟨h.lies_front, Stream.listing_ofTokens _⟩ hs

/-- **So are the words behind it**, behind what says the same as what is in front of it. -/
theorem rereads_back {s : Schema} (h : Cut source a front gap back tail) (hs : parse source = .ok s) :
    ∃ n, ∀ source' b, a.bare = b.bare →
      Rereads source' (advances source' n b) back fun c => (Progress.mk s []).bare = c.bare := by
  obtain ⟨ws, rest, hsource, -, hreads, hplaced⟩ := exists_words_of_scan h.tokens
  obtain ⟨k, hfront⟩ := h.rereads_front
  -- In the source itself, what is behind the boundary is left when the words in front of it have been read.
  obtain ⟨b, t, hrun, ht, hb⟩ := hfront source.toList h.lies_front (t := Stream.ofTokens _)
    ((Stream.tokens_ofTokens _).trans (significant_append ..))
  obtain ⟨s', hfinish⟩ : ∃ s', finish source.toList b t = .ok (s, s') := by
    rw [parse_eq_finish h.tokens, finish_advances hrun] at hs
    cases hrest : finish source.toList b t with
    | error e => rw [hrest] at hs; cases hs
    | ok x => rw [hrest] at hs; cases hs; exact ⟨x.2, rfl⟩
  obtain ⟨n, t', hrest, ht'⟩ := exists_advances_of_finish hfinish
  -- The steps from there are made again on the words behind the boundary alone.
  have hpasses : Passes source.toList false (advances source.toList k {}) := (copies_advances k rfl).passes
  obtain ⟨vs, us, -, hholds, -⟩ := hpasses (holds_ofTokens hreads hsource) (hplaced ▸ hrun)
  have hkept : (Stream.ofTokens (placed (({} : Place).after (textOf front ++ gap)) back)).tokens =
      significant (placed (({} : Place).after (textOf vs)) us) ++ [] := by
    rw [Stream.tokens_ofTokens, List.append_nil, ← hholds.tokens, ht]
  obtain ⟨c, t₁, hagain, ht₁, hc⟩ := (copies_advances n rfl hrest).rereads hholds ht' hholds.lies hkept
  refine ⟨n, fun source' b' hb' => ?_⟩
  have hcopied : Copied source.toList source' _ t₁ (advances source' n b') _ :=
    copies_advances n (hb.symm.trans hb') hagain
  exact (hcopied.rereads ⟨h.lies_back, Stream.listing_ofTokens _⟩ ht₁).mono fun d hd => hc.trans hd

/-- What is read as far as a boundary is read so in front of a line break. -/
theorem exists_advances_of_break {cs : List Char} {bs : List Token} {source' : String}
    (h : Cut source a front gap back tail) (hsource : source'.toList = textOf front ++ gap ++ '\n' :: cs)
    (hbs : scan ((({} : Place).after (textOf front ++ gap)).after ['\n']) cs = .ok bs) :
    ∃ ts n b t, tokenize source' = .ok ts ∧ advances source'.toList n {} (Stream.ofTokens ts) = .ok (b, t) ∧
      t.tokens = significant bs ∧ a.bare = b.bare := by
  obtain ⟨n, hfront⟩ := h.rereads_front
  have hlies : Lies source'.toList {} front :=
    lies_start (hsource.trans (List.append_assoc ..)) (reads_of_break h.reads h.blank)
  have htokens : tokenize source' = .ok (placed {} front ++ bs) := by
    rw [tokenize, hsource]
    exact scan_of_break h.reads h.blank hbs
  obtain ⟨b, t, hrun, ht, hb⟩ := hfront source'.toList hlies (t := Stream.ofTokens _)
    ((Stream.tokens_ofTokens _).trans (significant_append ..))
  exact ⟨_, n, b, t, htokens, hrun, ht, hb⟩

end Cut

/-- **What is passed over may be inserted at a boundary.** -/
theorem Boundary.parse_skipped {s : Schema} {text : String} {bs : List Token} (h : Boundary source before after a)
    (hs : parse source = .ok s) (hbs : tokenize text = .ok bs)
    (hskipped : Skipped a.opened.isEmpty ((significant bs).map Token.kind)) :
    ∃ s', parse (String.ofList (before ++ '\n' :: (text.toList ++ '\n' :: after))) = .ok s' ∧
      s'.bare = s.bare := by
  obtain ⟨front, gap, back, tail, rfl, rfl, hcut⟩ := h.exists_cut
  obtain ⟨inner, blank, htext, hblank, hinner, rfl⟩ := exists_words_of_scan hbs
  rw [← List.append_nil blank] at hinner
  rw [htext]
  generalize hnew : String.ofList _ = source'
  have hsource : source'.toList =
      textOf front ++ gap ++ '\n' :: (textOf inner ++ blank ++ '\n' :: (textOf back ++ tail)) := by
    rw [← hnew, String.toList_ofList]
  obtain ⟨ts, n, b, t, htokens, hrun, ht, hb⟩ := hcut.exists_advances_of_break hsource
    (scan_of_break hinner hblank (scan_words _ hcut.behind hcut.ended))
  -- The step over what is inserted adds nothing.
  have hkinds := kinds_significant_placed {} ((({} : Place).after (textOf front ++ gap)).after ['\n']) inner
  rw [isEmpty_opened_of_bare hb, hkinds] at hskipped
  rw [significant_append] at ht
  obtain ⟨t₁, hskip, ht₁⟩ := advance_skipped source'.toList hskipped ht
  -- Behind it the steps are those that the source goes on with.
  obtain ⟨m, hback⟩ := hcut.rereads_back hs
  have hlies : Lies source'.toList
      (({} : Place).after (textOf front ++ gap ++ '\n' :: (textOf inner ++ blank ++ ['\n']))) back :=
    lies_after (by simp [hsource]) hcut.behind
  rw [← Place.after_append, ← Place.after_append, ← Place.after_append] at ht₁
  obtain ⟨c, t₂, hrest, ht₂, hc⟩ := hback source'.toList b hb hlies (ht₁.trans (List.append_nil _).symm)
  obtain ⟨g, rfl, hg⟩ := exists_of_bare hc
  refine ⟨g, ?_, hg.symm⟩
  rw [parse_eq_finish htokens, finish_advances hrun, finish_advance hskip, finish_advances hrest, finish_nil g ht₂]
  rfl

/-- **A block that starts at a boundary and is not closed is an error.** -/
theorem Boundary.parse_unclosed {rest : String} {bs : List Token} (h : Boundary source before after a)
    (hbs : tokenize rest = .ok bs) (hunclosed : Unclosed a.opened.isEmpty ((significant bs).map Token.kind)) :
    parse (String.ofList (before ++ '\n' :: rest.toList)) = .error (.endOfInput (.symbol '\x7d')) := by
  obtain ⟨front, gap, back, tail, rfl, rfl, hcut⟩ := h.exists_cut
  obtain ⟨inner, blank, hrest, hblank, hinner, rfl⟩ := exists_words_of_scan hbs
  rw [hrest]
  generalize hnew : String.ofList _ = source'
  have hsource : source'.toList = textOf front ++ gap ++ '\n' :: (textOf inner ++ blank) := by
    rw [← hnew, String.toList_ofList]
  obtain ⟨ts, n, b, t, htokens, hrun, ht, hb⟩ :=
    hcut.exists_advances_of_break hsource (scan_words _ hinner hblank)
  have hkinds := kinds_significant_placed {} ((({} : Place).after (textOf front ++ gap)).after ['\n']) inner
  rw [isEmpty_opened_of_bare hb, hkinds, ← ht] at hunclosed
  rw [parse_eq_finish htokens, finish_advances hrun, finish_unclosed hunclosed]
  rfl

/-- **A construct that is passed over may be inserted at a boundary**, on lines of its own: the source then says what it
    said without. A block there that nothing closes is an error at the end of the input. -/
theorem parse_insert_skipped (h : Boundary source before after a) :
    (∀ s text bs, parse source = .ok s → tokenize text = .ok bs →
      Skipped a.opened.isEmpty ((significant bs).map Token.kind) →
      ∃ s', parse (String.ofList (before ++ '\n' :: (text.toList ++ '\n' :: after))) = .ok s' ∧
        s'.content = s.content) ∧
    ∀ rest bs, tokenize rest = .ok bs → Unclosed a.opened.isEmpty ((significant bs).map Token.kind) →
      parse (String.ofList (before ++ '\n' :: rest.toList)) = .error (.endOfInput (.symbol '\x7d')) := by
  refine ⟨fun s text bs hs hbs hskipped => ?_, fun rest bs hbs hunclosed => h.parse_unclosed hbs hunclosed⟩
  obtain ⟨s', hs', hbare⟩ := h.parse_skipped hs hbs hskipped
  exact ⟨s', hs', by rw [content_eq_bare hs', hbare, content_eq_bare hs]⟩

/-- Two messages, one nested in the other, as far as the body of the inner one. -/
def openedText : String := "message A \x7b // \x7d\n  int32 a = 1;\n  message B \x7b "

/-- The rest of them. -/
def closedText : String := "/* \x7b */ int32 b = 2; \x7d \x7d"

/-- A block with braces in a string and in comments. -/
def strayBlock : String := "extend C \x7b\n  string c = 3 [default = \"\x7d\"]; // \x7b\n  oneof \x7b \x7d \x7d // \x7d"

/-- A block that a string and a comment do not close. -/
def openBlock : String := "extend C \x7b '\x7d' \x7b \x7d // \x7d"

/-- The block may be inserted in the inner message, the one that is not closed may not. -/
theorem parse_insert_skipped_nested :
    ∃ a s s', Boundary (String.ofList (openedText.toList ++ closedText.toList)) openedText.toList closedText.toList a ∧
      a.opened.map Message.name = ["B", "A"] ∧
      parse (String.ofList (openedText.toList ++ closedText.toList)) = .ok s ∧
      parse (String.ofList (openedText.toList ++ '\n' :: (strayBlock.toList ++ '\n' :: closedText.toList))) = .ok s' ∧
      s'.content = s.content ∧
      parse (String.ofList (openedText.toList ++ '\n' :: openBlock.toList)) =
        .error (.endOfInput (.symbol '\x7d')) := by
  have hfront : (boundary? openedText.toList closedText.toList 3 12).map (fun a => a.opened.map Message.name) =
      some ["B", "A"] := by
    delta openedText closedText
    simp only [String.reduceToList]
    decide +kernel
  have hwhole : (parseChars (openedText.toList ++ closedText.toList)).isOk = true := by
    delta openedText closedText
    simp only [String.reduceToList]
    decide +kernel
  have hstray : (scan {} strayBlock.toList).toOption.map (fun bs => (significant bs).map Token.kind) =
      some [.ident "extend", .ident "C", .symbol '\x7b', .ident "string", .ident "c", .symbol '=', .int "3",
        .symbol '[', .ident "default", .symbol '=', .str "\x7d", .symbol ']', .symbol ';', .ident "oneof",
        .symbol '\x7b', .symbol '\x7d', .symbol '\x7d'] := by
    delta strayBlock
    simp only [String.reduceToList]
    decide +kernel
  have hopen : (scan {} openBlock.toList).toOption.map (fun bs => (significant bs).map Token.kind) =
      some [.ident "extend", .ident "C", .symbol '\x7b', .str "\x7d", .symbol '\x7b', .symbol '\x7d'] := by
    delta openBlock
    simp only [String.reduceToList]
    decide +kernel
  obtain ⟨a, ha, hnames⟩ := Option.map_eq_some_iff.mp hfront
  obtain ⟨s, hs⟩ := exists_of_isOk hwhole
  obtain ⟨bs, hbs, hkinds⟩ := exists_of_toOption_map hstray
  obtain ⟨cs, hcs, hkinds'⟩ := exists_of_toOption_map hopen
  have hs' : parse (String.ofList (openedText.toList ++ closedText.toList)) = .ok s := by
    rw [parse_eq, String.toList_ofList, hs]
  have hinside : a.opened.isEmpty = false := by
    cases hopened : a.opened with
    | nil => rw [hopened] at hnames; cases hnames
    | cons m ms => rfl
  have hplain : Balanced [.ident "string", .ident "c", .symbol '=', .int "3", .symbol '[', .ident "default",
      .symbol '=', .str "\x7d", .symbol ']', .symbol ';', .ident "oneof"] := balanced_of_plain (by decide)
  have hskipped : Skipped false (.ident "extend" :: [.ident "C"] ++ .symbol '\x7b' :: _ ++ [.symbol '\x7d']) :=
    .block (.inl rfl) (by decide) (hplain.append (.braces .nil))
  have hunclosed : Unclosed false (.ident "extend" :: [.ident "C"] ++ .symbol '\x7b' ::
      [.str "\x7d", .symbol '\x7b', .symbol '\x7d']) :=
    .block (.inl rfl) (by decide) (not_balanced_of_count_le (by decide))
  have hboundary := boundary_of_boundary? ha
  obtain ⟨hinsert, herror⟩ := parse_insert_skipped hboundary
  rw [hinside] at hinsert herror
  obtain ⟨s', hs'', hcontent⟩ := hinsert s strayBlock bs hs' hbs (hkinds ▸ hskipped)
  exact ⟨a, s, s', hboundary, hnames, hs', hs'', hcontent,
    herror openBlock cs hcs (hkinds' ▸ hunclosed)⟩

end Schema

end FlagSchema
