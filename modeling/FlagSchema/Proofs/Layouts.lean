import FlagSchema.Proofs.Statements
import FlagSchema.Proofs.Tiling

/-!
# Texts laid out in parts

A text may be cut between statements into parts that are texts of their own. However the parts are laid out,
the whole declares what they do, one behind another.

* **`LaidOut`**: parts stand in a text one behind another, with blanks between them.
* **`Schema.all`**: several schemas one behind another.
* **`Schema.hasStatements_parse`**: every source that is read is laid out in its statements.
* **`Schema.parse_laidOut`**: a text laid out in parts declares what the parts do.
-/

namespace FlagSchema

open Token Reader

variable {p : Place}

-- ── Layouts ──────────────────────────────────────────────────────────────────────

/-- A text whose end lies in a line comment. -/
def EndsInLineComment (part : String) : Prop :=
  ∃ ts t cs, tokenize part = .ok ts ∧ t ∈ ts ∧ t.kind = .comment (String.ofList ('/' :: '/' :: cs)) ∧
    t.span.stop = Text.byteSize part.toList

/-- Parts stand in a text one behind another, with blanks between them. A line comment at the end of a part
    is ended by a line break. -/
inductive LaidOut : List String → List Char → Prop where
  | nil {gap : List Char} (blank : gap.all Text.isBlank = true) : LaidOut [] gap
  | cons {gap : List Char} {part : String} {parts : List String} {rest : List Char}
      (blank : gap.all Text.isBlank = true)
      (ended : EndsInLineComment part → ∀ c ∈ rest.head?, c = '\n')
      (behind : LaidOut parts rest) : LaidOut (part :: parts) (gap ++ part.toList ++ rest)

namespace LaidOut

variable {parts : List String} {cs : List Char}

/-- Blanks may stand in front. -/
theorem prepend (h : LaidOut parts cs) {gap : List Char} (hgap : gap.all Text.isBlank = true) :
    LaidOut parts (gap ++ cs) := by
  cases h with
  | nil blank => exact .nil (by rw [List.all_append, hgap, blank, Bool.and_self])
  | cons blank ended behind =>
      rw [← List.append_assoc, ← List.append_assoc]
      exact .cons (by rw [List.all_append, hgap, blank, Bool.and_self]) ended behind

/-- A part in front without blanks. -/
theorem cons_nil {part : String} (ended : EndsInLineComment part → ∀ c ∈ cs.head?, c = '\n')
    (behind : LaidOut parts cs) : LaidOut (part :: parts) (part.toList ++ cs) :=
  .cons (rfl : [].all Text.isBlank = true) ended behind

theorem single (part : String) : LaidOut [part] part.toList := by
  have h : LaidOut [part] (part.toList ++ []) :=
    .cons_nil (fun _ _ hc => absurd hc (Option.not_mem_none _)) (.nil rfl)
  rwa [List.append_nil] at h

/-- Parts joined by line breaks. -/
theorem intercalate (parts : List String) : LaidOut parts ("\n".intercalate parts).toList := by
  induction parts with
  | nil => exact .nil rfl
  | cons part parts ih =>
      cases parts with
      | nil => exact .single part
      | cons part' parts =>
          have hbreak : LaidOut (part' :: parts) (['\n'] ++ ("\n".intercalate (part' :: parts)).toList) :=
            ih.prepend (by decide)
          rw [String.intercalate_cons_cons, String.toList_append, String.toList_append, List.append_assoc]
          exact .cons_nil (fun _ c hc => (Option.mem_some_iff.mp hc).symm) hbreak

end LaidOut

-- ── Scanning a layout ────────────────────────────────────────────────────────────

namespace Token

/-- Blanks in front of a text move its tokens. -/
theorem scan_gap {gap cs : List Char} {ts : List Token} (hgap : gap.all Text.isBlank = true)
    (h : scan (p.after gap) cs = .ok ts) : scan p (gap ++ cs) = .ok ts := by
  obtain ⟨ws, tail, rfl, htail, hreads, rfl⟩ := exists_words_of_scan h
  cases ws with
  | nil => exact scan_blanks p (by rw [textOf_nil, List.nil_append, List.all_append, hgap, htail, Bool.and_self])
  | cons w ws =>
      obtain ⟨hblank, hleads, hws⟩ := hreads
      -- The blanks belong to the first word.
      have hmoved : Reads tail ({ w with blank := gap ++ w.blank } :: ws) :=
        ⟨by rw [List.all_append, hgap, hblank, Bool.and_self], hleads, hws⟩
      have hscan := scan_words p hmoved htail
      simpa only [textOf_cons, placed_cons, Word.text, Word.token, List.append_assoc, Place.after_append]
        using hscan

/-- A comment stays in front of every text, if it is no line comment or the line ends there. -/
theorem Word.Leads.of_comment_ended {w : Word} {text : String} {cs ds : List Char} (h : w.Leads cs)
    (hk : w.kind = .comment text)
    (hline : ∀ xs, text = String.ofList ('/' :: '/' :: xs) → ∀ c ∈ ds.head?, c = '\n') : w.Leads ds := by
  rcases h.comment_form hk with ⟨xs, hspelling, htext, ends⟩ | ⟨xs, hspelling, htext, ends⟩
  · have hslash : Text.isBlank '/' = false := by decide
    rw [hspelling, trimEnd_cons hslash, trimEnd_cons hslash] at htext
    have hnewline := hline (Text.trimEnd xs) (by rw [← htext, String.ofList_toList])
    refine Form.leads (.lineComment xs hspelling ?_ (cut_eq_iff.mpr ⟨(cut_eq_iff.mp ends).1, ?_⟩))
    · rw [hk, hspelling, trimEnd_cons hslash, trimEnd_cons hslash, ← htext, String.ofList_toList]
    · intro c hc
      rw [hnewline c hc]
      rfl
  · refine Form.leads (.blockComment xs hspelling ?_ (block_stays ends ds))
    rw [hk, ← htext, String.ofList_toList]

/-- A word that ends a statement, or a comment. -/
def Word.Final (w : Word) : Prop := w.kind.isComment = true ∨ Schema.IsEnd w.kind

namespace Word.Final

variable {w : Word} {cs : List Char}

/-- It is written as more than a dot. -/
theorem text_ne_dot (h : w.Final) (hl : w.Leads cs) : w.text ≠ ['.'] := by
  intro htext
  have hspelling := hl.spelling_of_text htext
  rcases h with h | h | h
  · cases hk : w.kind with
    | comment text =>
        rcases hl.comment_form hk with ⟨xs, hw, -⟩ | ⟨xs, hw, -⟩
        · rw [hspelling] at hw; cases hw
        · rw [hspelling] at hw; cases hw
    | _ => rw [hk] at h; cases h
  · rw [(hl.symbol_form h).1] at hspelling; cases hspelling
  · rw [(hl.symbol_form h).1] at hspelling; cases hspelling

/-- It stays in front of every text, if it is no line comment or the line ends there. -/
theorem leads (h : w.Final) (hl : w.Leads cs) {ds : List Char}
    (hline : ∀ xs, w.kind = .comment (String.ofList ('/' :: '/' :: xs)) → ∀ c ∈ ds.head?, c = '\n') :
    w.Leads ds := by
  rcases h with h | h | h
  · cases hk : w.kind with
    | comment text => exact hl.of_comment_ended hk fun xs htext => hline xs (by rw [hk, htext])
    | _ => rw [hk] at h; cases h
  · exact hl.of_symbol h (by decide) (by decide) ds
  · exact hl.of_symbol h (by decide) (by decide) ds

end Word.Final

/-- Words that end as a statement does have a final word. -/
theorem EndIn.final {ws : List Word} (h : EndIn Schema.IsEnd ws) : ∃ us w, ws = us ++ [w] ∧ w.Final := by
  obtain ⟨us, v, ts, rfl, hv, hts⟩ := h
  rcases List.eq_nil_or_concat' ts with rfl | ⟨ts, t, rfl⟩
  · exact ⟨us, v, rfl, .inr hv⟩
  · exact ⟨us ++ v :: ts, t, by simp, .inl (hts t (List.mem_append_right _ (List.mem_singleton_self t)))⟩

/-- So have the words of a whole text, if there are any. -/
theorem final_of_isWhole {ws : List Word} (h : Schema.IsWhole ws) :
    ws = [] ∨ ∃ us w, ws = us ++ [w] ∧ w.Final := by
  rcases h with hcomments | hends
  · rcases List.eq_nil_or_concat' ws with hnil | ⟨us, w, rfl⟩
    · exact .inl hnil
    · exact .inr ⟨us, w, rfl, .inl (hcomments w (List.mem_append_right _ (List.mem_singleton_self w)))⟩
  · exact .inr hends.final

/-- Words with a final one are found in front of every text, if that is no line comment or the line ends there. -/
theorem reads_of_final {us : List Word} {w : Word} {cs ds : List Char} (h : Reads cs (us ++ [w])) (hw : w.Final)
    (hline : ∀ xs, w.kind = .comment (String.ofList ('/' :: '/' :: xs)) → ∀ c ∈ ds.head?, c = '\n') :
    Reads ds (us ++ [w]) := by
  obtain ⟨-, -, hleads, -⟩ := reads_append.mp h
  exact h.of_last (hw.text_ne_dot hleads) (hw.leads hleads hline)

/-- A blank keeps every word in front of it. -/
theorem reads_before_blank {ws : List Word} {b cs ds : List Char} (h : Reads (b ++ cs) ws) (hne : b ≠ [])
    (hb : b.all Text.isBlank = true) : Reads (b ++ ds) ws := by
  have hdot : b ≠ ['.'] := by
    rintro rfl
    cases hb
  exact (reads_of_alike (k := none) h (.inl (.of_common hne hdot cs ds))).1

/-- The words of a whole text are found in front of what may stand behind it. -/
theorem reads_behind {ws : List Word} {tail rest : List Char} (hreads : Reads tail ws)
    (htail : tail.all Text.isBlank = true) (hwhole : Schema.IsWhole ws)
    (hline : tail = [] → ∀ us w xs, ws = us ++ [w] → w.kind = .comment (String.ofList ('/' :: '/' :: xs)) →
      ∀ c ∈ rest.head?, c = '\n') : Reads (tail ++ rest) ws := by
  by_cases hnil : tail = []
  · subst hnil
    rcases final_of_isWhole hwhole with rfl | ⟨us, w, rfl, hw⟩
    · exact reads_nil _
    · exact reads_of_final hreads hw fun xs hk => hline rfl us w xs rfl hk
  · rw [← List.append_nil tail] at hreads
    exact reads_before_blank hreads hnil htail

/-- The last word of a text, if it is a line comment and nothing is behind it. -/
theorem endsInLineComment_of_words {part : String} {us : List Word} {w : Word} {xs : List Char}
    (hpart : part.toList = textOf (us ++ [w])) (hreads : Reads [] (us ++ [w]))
    (hw : w.kind = .comment (String.ofList ('/' :: '/' :: xs))) : EndsInLineComment part := by
  have hscan := scan_words {} hreads rfl
  rw [List.append_nil, ← hpart] at hscan
  refine ⟨_, w.token (({} : Place).after (textOf us)), xs, hscan, ?_, hw, ?_⟩
  · rw [placed_append, placed_cons]
    exact List.mem_append_right _ (List.mem_cons_self ..)
  · rw [Word.stop_token, ← Place.after_append, Place.offset_after, hpart, textOf_append, textOf_cons, textOf_nil,
      List.append_nil]
    exact Nat.zero_add _

/-- Where words are found in front of a text and end in a line comment, the line ends there. -/
theorem line_ends_of_words {part : String} {us : List Word} {w : Word} {rest : List Char}
    (hpart : part.toList = textOf (us ++ [w])) (hreads : Reads rest (us ++ [w])) (halone : Reads [] (us ++ [w]))
    (h : EndsInLineComment part) : ∀ c ∈ rest.head?, c = '\n' := by
  obtain ⟨ts, t, cs, hts, ht, hkind, hstop⟩ := h
  have hscan := scan_words {} halone rfl
  rw [List.append_nil, ← hpart] at hscan
  cases hscan.symm.trans hts
  obtain ⟨us', v, vs, hws, rfl⟩ := exists_of_mem_placed ht
  -- The token at the end of the text is its last word.
  have hvs : textOf vs = [] := by
    by_contra hne
    have hpos := Text.byteSize_pos hne
    rw [Word.stop_token, Place.offset_after, Place.offset_after, hpart, hws, textOf_append, textOf_cons,
      Text.byteSize_append, Text.byteSize_append] at hstop
    have hstart : ({} : Place).offset = 0 := rfl
    omega
  have hvs' : vs = [] := by
    cases vs with
    | nil => rfl
    | cons u vs =>
        rw [hws] at halone
        obtain ⟨-, -, hu, -⟩ := (reads_append.mp halone).2.2
        exact absurd (List.append_eq_nil_iff.mp hvs).1 hu.text_ne_nil
  subst hvs'
  obtain ⟨-, hw⟩ := List.append_inj' hws rfl
  cases hw
  obtain ⟨-, -, hleads, -⟩ := reads_append.mp hreads
  rcases hleads.comment_form hkind with ⟨xs, -, -, ends⟩ | ⟨xs, hspelling, htext, -⟩
  · intro c hc
    simpa using (cut_eq_iff.mp ends).2 c hc
  · rw [String.toList_ofList, hspelling] at htext
    cases htext

end Token

-- ── Reading a layout ─────────────────────────────────────────────────────────────

namespace Schema

/-- What a text declares, if it can be read. -/
def parsed (part : String) : Schema := (parse part).toOption.getD {}

theorem parsed_of_ok {part : String} {s : Schema} (h : parse part = .ok s) : parsed part = s := by
  rw [parsed, h]
  rfl

/-- Several schemas one behind another. -/
def all (ss : List Schema) : Schema := ss.foldr append {}

@[simp] theorem all_nil : all [] = {} := rfl

@[simp] theorem all_cons (s : Schema) (ss : List Schema) : all (s :: ss) = s.append (all ss) := rfl

/-- **The statements of a layout are read one behind another**, wherever it stands in a source. -/
theorem exists_scan_of_laidOut {source before cs : List Char} {parts : List String} {q : Place}
    (h : LaidOut parts cs) (hparts : ∀ part ∈ parts, ∃ s, parse part = .ok s)
    (hsource : source = before ++ cs) (hq : q.offset = Text.byteSize before) :
    ∃ ts, scan q cs = .ok ts ∧ ∀ g t, t.tokens = significant ts →
      ∃ g' t', iterate (step source) (proceeds_step source) g t = .ok (g', t') ∧
        g'.bare = (g.append (all (parts.map parsed))).bare := by
  induction h generalizing before q with
  | nil blank =>
      refine ⟨[], scan_blanks q blank, fun g t ht => ⟨g, { t with held := [] }, ?_, ?_⟩⟩
      · rw [iterate_eq, bind_ok (step_of_nil source g ht)]
        rfl
      · rw [List.map_nil, all_nil, append_empty]
  | @cons gap part parts rest blank ended behind ih =>
      obtain ⟨s, hs⟩ := hparts part (List.mem_cons_self ..)
      obtain ⟨W, tail, hpart, htail, hreads, hstated, hwhole⟩ := statedBy_parse hs
      have hbehind : Reads (tail ++ rest) W := by
        refine reads_behind hreads htail hwhole fun hnil us w xs hW hw => ended ?_
        subst hnil hW
        exact endsInLineComment_of_words (by rw [hpart, List.append_nil]) hreads hw
      have hlies : Lies source (q.after gap) W := by
        refine ⟨before ++ gap, tail ++ rest, ?_, ?_, hbehind⟩
        · rw [hsource, hpart]
          simp only [List.append_assoc]
        · rw [Place.offset_after, hq, Text.byteSize_append]
      have hbefore : source = (before ++ gap ++ textOf W ++ tail) ++ rest := by
        rw [hsource, hpart]
        simp only [List.append_assoc]
      have hoffset : (((q.after gap).after (textOf W)).after tail).offset =
          Text.byteSize (before ++ gap ++ textOf W ++ tail) := by
        simp only [Place.offset_after, hq, Text.byteSize_append]
      obtain ⟨ts, hscan, hrest⟩ :=
        ih (fun part hp => hparts part (List.mem_cons_of_mem _ hp)) hbefore hoffset
      refine ⟨placed (q.after gap) W ++ ts, ?_, fun g t ht => ?_⟩
      · rw [hpart, List.append_assoc, List.append_assoc]
        refine scan_gap blank ?_
        rw [scan_textOf _ hbehind, scan_gap htail hscan]
        rfl
      · rw [significant_append] at ht
        obtain ⟨g₁, t₁, ht₁, hg₁, hrun⟩ := hstated source g hlies ht
        obtain ⟨g', t', hrun', hg'⟩ := hrest g₁ t₁ ht₁
        refine ⟨g', t', hrun.trans hrun', ?_⟩
        rw [hg', bare_append, hg₁, ← bare_append, append_assoc, List.map_cons, all_cons, parsed_of_ok hs]

/-- Words that state a schema are a text that declares it. -/
theorem StatedBy.exists_parse {s : Schema} {W : List Word} {tail : List Char} (h : ∀ source, s.StatedBy source W)
    (hreads : Reads tail W) (htail : tail.all Text.isBlank = true) :
    ∃ t, parse (String.ofList (textOf W ++ tail)) = .ok t ∧ t.bare = s.bare := by
  refine parse_of_rereads hreads htail fun source q u hq hu => ?_
  rw [← List.append_nil (significant _)] at hu
  obtain ⟨t, u', hu', ht, hrun⟩ := h source {} hq hu
  rw [empty_append] at ht
  refine ⟨t, { u' with held := [] }, ?_, ht⟩
  rw [hrun, iterate_eq, bind_ok (step_of_nil source t hu')]
  rfl

/-- A text is laid out in parts that are one statement each. -/
def HasStatements (cs : List Char) : Prop :=
  ∃ parts, LaidOut parts cs ∧ ∀ part ∈ parts, ∃ x t, parse part = .ok t ∧ t.bare = (push {} x).bare

/-- The words up to the end of the input are laid out in statements. -/
theorem hasStatements_iterate {source tail : List Char} {g g' : Schema} {s s' : Stream} {ws : List Word}
    (hs : s.Holds source p ws) (hreads : Reads tail ws) (htail : tail.all Text.isBlank = true)
    (h : iterate (step source) (proceeds_step source) g s = .ok (g', s')) : HasStatements (textOf ws ++ tail) := by
  fun_induction iterate (step source) (proceeds_step source) g s generalizing p ws with
  | case1 => cases h
  | case2 g s a s₁ h1 =>
      cases h
      rcases step_inv h1 with ⟨hx, hitems, rfl⟩ | ⟨_, hx, _⟩
      case inr => cases hx
      cases hx
      -- The comments at the end are one more part.
      have hcomments := hs.comments_of_nil hitems
      obtain ⟨t, ht, hbare⟩ := StatedBy.exists_parse (fun _ => .of_comments hcomments) hreads htail
      refine ⟨[String.ofList (textOf ws ++ tail)], ?_, ?_⟩
      · have hsingle := LaidOut.single (String.ofList (textOf ws ++ tail))
        rwa [String.toList_ofList] at hsingle
      · intro part hpart
        cases List.mem_singleton.mp hpart
        exact ⟨.skip, t, ht, hbare⟩
  | case3 g s b s₁ h1 hlt ih =>
      rcases step_inv h1 with ⟨hx, _, _⟩ | ⟨x, hx, h2⟩
      case inl => cases hx
      cases hx
      obtain ⟨vs, ws', rfl, hs₁, hends, hstated⟩ := readItem_inv (hs.held []) h2
      obtain ⟨hfront, hreads'⟩ := reads_append.mp hreads
      obtain ⟨parts, hparts, hstatements⟩ := ih hs₁ hreads' h
      obtain ⟨us, w, rfl, hw⟩ := hends.final
      have halone : Reads [] (us ++ [w]) :=
        reads_of_final hfront hw fun _ _ _ hc => absurd hc (Option.not_mem_none _)
      obtain ⟨t, ht, hbare⟩ := StatedBy.exists_parse hstated halone rfl
      rw [List.append_nil] at ht
      refine ⟨String.ofList (textOf (us ++ [w])) :: parts, ?_,
        List.forall_mem_cons.mpr ⟨⟨x, t, ht, hbare⟩, hstatements⟩⟩
      have htext : (String.ofList (textOf (us ++ [w]))).toList = textOf (us ++ [w]) := String.toList_ofList
      have hlaid := LaidOut.cons_nil (line_ends_of_words htext hfront halone) hparts
      rwa [htext, ← List.append_assoc, ← textOf_append] at hlaid

/-- **A source that is read is laid out in statements.** -/
theorem hasStatements_parse {source : String} {s : Schema} (h : parse source = .ok s) :
    HasStatements source.toList := by
  obtain ⟨W, tail, s', hsource, htail, hreads, hrun⟩ := parse_inv h
  rw [hsource]
  exact hasStatements_iterate (holds_ofTokens hreads hsource) hreads htail hrun

/-- **A text laid out in parts declares what the parts do, one behind another.** -/
theorem parse_laidOut {source : String} {parts : List String} (h : LaidOut parts source.toList)
    (hparts : ∀ part ∈ parts, ∃ s, parse part = .ok s) :
    ∃ s, parse source = .ok s ∧ s.bare = (all (parts.map parsed)).bare := by
  obtain ⟨ts, hscan, hstatements⟩ := exists_scan_of_laidOut h hparts (List.nil_append _).symm
    (rfl : ({} : Place).offset = Text.byteSize [])
  obtain ⟨s, t', hrun, hs⟩ := hstatements {} (Stream.ofTokens ts) (Stream.tokens_ofTokens ts)
  rw [empty_append] at hs
  refine ⟨s, ?_, hs⟩
  have htokens : tokenize source = .ok ts := hscan
  rw [parse, htokens]
  exact congrArg (Except.map Prod.fst) hrun

end Schema

end FlagSchema
