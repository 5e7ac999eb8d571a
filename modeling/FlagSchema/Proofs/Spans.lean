import FlagSchema.Proofs.Clauses
import FlagSchema.Proofs.Tiling

/-!
# The spans of declarations

Every span that a declaration records cuts the text it stands for out of the source: it is the span of a token,
or reaches from one token to another, and tokens are in the order of the source and do not overlap.

* **`Token.Ordered`**: tokens that cut a source, in order.
* **`Token.Inside`**: a span starts and stops with tokens.
* **`EnumDef.Spans`**, **`EnumValue.Spans`**, **`Field.Spans`**: what the spans of an enum, of its values and of a
  field are.
* **`Schema.spans_parse`**: so are all spans of a schema that has been parsed.
-/

namespace FlagSchema

open Token

variable {source : List Char} {us vs ts : List Token} {t : Token}

-- ── Tokens that cut a source ─────────────────────────────────────────────────────

/-- One span ends before another starts. -/
def Span.Before (s t : Span) : Prop := s.stop ≤ t.start

/-- One more thing behind others. -/
theorem Span.pairwise_concat {α : Type} {span : α → Span} {as : List α} {a : α}
    (h : (as.map span).Pairwise Before) (ha : ∀ b ∈ as, (span b).Before (span a)) :
    ((as ++ [a]).map span).Pairwise Before := by
  rw [List.map_append, List.pairwise_append]
  refine ⟨h, List.pairwise_singleton .., fun x hx y hy => ?_⟩
  obtain ⟨b, hb, rfl⟩ := List.mem_map.mp hx
  obtain rfl := List.mem_singleton.mp hy
  exact ha b hb

namespace Token

theorem Kind.Written.eq_name {name : String} {cs : List Char} (h : Kind.Written (.ident name) cs) :
    cs = name.toList := by
  cases h
  exact String.toList_ofList.symm

theorem Kind.Written.eq_symbol {c : Char} {cs : List Char} (h : Kind.Written (.symbol c) cs) : cs = [c] := by
  cases h
  rfl

/-- Tokens cut a source in their order. -/
structure Ordered (source : List Char) (us : List Token) : Prop where
  order : us.Pairwise fun t u => t.span.stop ≤ u.span.start
  cuts  : ∀ t ∈ us, ∃ before spelling after, t.Cuts source before spelling after

namespace Ordered

theorem filter (h : Ordered source ts) (p : Token → Bool) : Ordered source (ts.filter p) :=
  ⟨h.order.filter p, fun t ht => h.cuts t (List.mem_of_mem_filter ht)⟩

/-- All tokens of a source cut it in order, comments included. -/
theorem of_tokenize_all {source : String} (h : tokenize source = .ok ts) : Ordered source.toList ts := by
  obtain ⟨ws, tail, hsource, htail, hreads, rfl⟩ := exists_words_of_scan h
  have htiles := tiles_placed hreads htail
  rw [hsource]
  exact ⟨htiles.ordered, htiles.cuts⟩

theorem of_tokenize {source : String} (h : tokenize source = .ok ts) :
    Ordered source.toList (significant ts) := (of_tokenize_all h).filter _

theorem part (h : Ordered source ts) (hus : us <:+: ts) : Ordered source us :=
  ⟨h.order.sublist hus.sublist, fun t ht => h.cuts t (hus.subset ht)⟩

theorem front (h : Ordered source (us ++ vs)) : Ordered source us := h.part (List.prefix_append us vs).isInfix

theorem back (h : Ordered source (us ++ vs)) : Ordered source vs := h.part (List.suffix_append us vs).isInfix

theorem tail (h : Ordered source (t :: us)) : Ordered source us := h.part (List.suffix_cons t us).isInfix

theorem start_lt_stop (h : Ordered source us) (ht : t ∈ us) : t.span.start < t.span.stop := by
  obtain ⟨before, spelling, after, hcuts⟩ := h.cuts t ht
  exact hcuts.start_lt_stop

theorem slice_name {name : String} (h : Ordered source us) (ht : t ∈ us) (hk : t.kind = .ident name) :
    Text.slice source t.span = name.toList := by
  obtain ⟨before, spelling, after, hcuts⟩ := h.cuts t ht
  rw [hcuts.slice]
  exact Kind.Written.eq_name (hk ▸ hcuts.written)

theorem slice_symbol {c : Char} (h : Ordered source us) (ht : t ∈ us) (hk : t.kind = .symbol c) :
    Text.slice source t.span = [c] := by
  obtain ⟨before, spelling, after, hcuts⟩ := h.cuts t ht
  rw [hcuts.slice]
  exact Kind.Written.eq_symbol (hk ▸ hcuts.written)

/-- From one symbol to another behind it. -/
theorem slice_between {u : Token} {c d : Char} (h : Ordered source us) (ht : t ∈ us) (hu : u ∈ us)
    (htu : t.span.stop ≤ u.span.start) (hc : t.kind = .symbol c) (hd : u.kind = .symbol d) :
    ∃ inside, Text.slice source ⟨t.span.start, u.span.stop⟩ = c :: (inside ++ [d]) := by
  obtain ⟨front, _, after, hcuts⟩ := h.cuts t ht
  obtain ⟨before, _, back, hcuts'⟩ := h.cuts u hu
  obtain rfl := Kind.Written.eq_symbol (hc ▸ hcuts.written)
  obtain rfl := Kind.Written.eq_symbol (hd ▸ hcuts'.written)
  rw [hcuts.span, hcuts'.span] at htu ⊢
  -- What stands before the second symbol starts with what the first one ends.
  have hprefix : front ++ [c] <+: before := by
    refine Text.prefix_of_byteSize_le ⟨after, hcuts.text.symm⟩ ⟨[d] ++ back, ?_⟩ htu
    rw [hcuts'.text, List.append_assoc]
  obtain ⟨inside, rfl⟩ := hprefix
  refine ⟨inside, ?_⟩
  have hsource : source = front ++ (c :: (inside ++ [d])) ++ back := by
    rw [hcuts'.text]
    simp only [List.append_assoc, List.cons_append, List.nil_append]
  have hsize : Text.byteSize (front ++ [c] ++ inside ++ [d]) =
      Text.byteSize front + Text.byteSize (c :: (inside ++ [d])) := by
    rw [← Text.byteSize_append]
    simp only [List.append_assoc, List.cons_append, List.nil_append]
  rw [hsize, hsource]
  exact Text.slice_append ..

/-- Of two tokens the one with the lower index ends first. -/
theorem stop_le_start {u : Token} {i j : Nat} (h : Ordered source us) (ht : us[i]? = some t) (hu : us[j]? = some u)
    (hlt : i < j) : t.span.stop ≤ u.span.start := by
  obtain ⟨hi, rfl⟩ := List.getElem?_eq_some_iff.mp ht
  obtain ⟨hj, rfl⟩ := List.getElem?_eq_some_iff.mp hu
  exact List.pairwise_iff_getElem.mp h.order i j hi hj hlt

theorem stop_le {n : Nat} (h : Ordered source us) (hn : StopsAt us n) (ht : t ∈ us) : t.span.stop ≤ n := by
  obtain ⟨u, hu, rfl⟩ := hn
  obtain ⟨us, rfl⟩ := List.getLast?_eq_some_iff.mp hu
  rcases List.mem_append.mp ht with ht | ht
  · have hlt := h.start_lt_stop (List.mem_append_right us (List.mem_singleton_self u))
    have hle := (List.pairwise_append.mp h.order).2.2 t ht u (List.mem_singleton_self u)
    omega
  · rw [List.mem_singleton.mp ht]

end Ordered

-- ── Spans among tokens ───────────────────────────────────────────────────────────

/-- A span starts where a token does and stops where a token does, and is not empty. -/
structure Inside (us : List Token) (span : Span) : Prop where
  start : ∃ t ∈ us, span.start = t.span.start
  stop  : ∃ t ∈ us, span.stop = t.span.stop
  lt    : span.start < span.stop

variable {span : Span}

theorem Inside.mono (h : Inside us span) (hus : us ⊆ vs) : Inside vs span := by
  obtain ⟨⟨t, ht, hstart⟩, ⟨u, hu, hstop⟩, hlt⟩ := h
  exact ⟨⟨t, hus ht, hstart⟩, ⟨u, hus hu, hstop⟩, hlt⟩

theorem Covers.inside (h : Covers us span) (hus : Ordered source us) : Inside us span := by
  obtain ⟨⟨t, ht, hstart⟩, ⟨u, hu, hstop⟩⟩ := h
  have hmem := List.mem_of_head? ht
  have hlt := hus.start_lt_stop hmem
  have hle := hus.stop_le ⟨u, hu, rfl⟩ hmem
  exact ⟨⟨t, hmem, hstart⟩, ⟨u, List.mem_of_getLast? hu, hstop⟩, by omega⟩

theorem inside_of_mem (h : Ordered source us) (ht : t ∈ us) : Inside us t.span :=
  ⟨⟨t, ht, rfl⟩, ⟨t, ht, rfl⟩, h.start_lt_stop ht⟩

/-- What is inside tokens is before what is inside those behind them. -/
theorem Inside.before {other : Span} (h : Inside us span) (h' : Inside vs other)
    (hordered : Ordered source (us ++ vs)) : span.Before other := by
  obtain ⟨-, ⟨t, ht, hstop⟩, -⟩ := h
  obtain ⟨⟨u, hu, hstart⟩, -, -⟩ := h'
  rw [Span.Before, hstop, hstart]
  exact (List.pairwise_append.mp hordered.order).2.2 t ht u hu

end Token

-- ── Options ──────────────────────────────────────────────────────────────────────

namespace Setting

variable {s : Setting} {ss : List Setting} {span : Span}

theorem EntryPhrase.covers (h : EntryPhrase source us s) : Covers us s.span := by
  obtain ⟨-, -, -, start, stop⟩ := h
  exact ⟨start.append _, (stop.append [_]).append _⟩

theorem StatementPhrase.covers (h : StatementPhrase source us s) : Covers us s.span := by
  cases h with
  | @intro N V keyword equals semicolon s _ _ _ _ _ span =>
      have hstop : StopsAt (equals :: (V ++ [semicolon])) semicolon.span.stop := stopsAt_concat (equals :: V) semicolon
      rw [span]
      exact ⟨startsAt_cons _ _, hstop.append (keyword :: N)⟩

theorem EntriesPhrase.inside (h : EntriesPhrase source us ss) (hus : Ordered source us) :
    ∀ s ∈ ss, Inside us s.span := by
  induction h with
  | one h => exact List.forall_mem_singleton.mpr (h.covers.inside hus)
  | @more us vs comma ss s h hcomma hs ih =>
      refine List.forall_mem_append.mpr ⟨fun x hx => (ih hus.front x hx).mono (List.subset_append_left ..), ?_⟩
      refine List.forall_mem_singleton.mpr ((hs.covers.inside hus.back.tail).mono ?_)
      exact fun t ht => List.mem_append_right _ (List.mem_cons_of_mem _ ht)

theorem EntriesPhrase.occurEach (h : EntriesPhrase source us ss) : OccurEach (EntryPhrase source) us ss := by
  induction h with
  | one h => exact List.forall_mem_singleton.mpr (.of_phrase h)
  | @more us vs comma ss s h hcomma hs ih =>
      refine (ih.mono (List.prefix_append us _).isInfix).concat ((Occurs.of_phrase hs).mono ?_)
      exact ((List.suffix_cons comma vs).trans (List.suffix_append us _)).isInfix

/-- The options of a list stand among its tokens. -/
theorem ListPhrase.occurEach {settingsSpan : Option Span} (h : ListPhrase source us ss settingsSpan) :
    OccurEach (EntryPhrase source) us ss := by
  cases h with
  | nil => exact .nil
  | brackets ho h hc => exact h.occurEach.mono ⟨[_], [_], rfl⟩

/-- **The brackets of a list hold all its options.** -/
theorem ListPhrase.brackets_hold (h : ListPhrase source us ss (some span)) (hus : Ordered source us) :
    (∃ inside, Text.slice source span = '[' :: (inside ++ [']'])) ∧
      ∀ s ∈ ss, span.start < s.span.start ∧ s.span.stop < span.stop := by
  cases h with
  | @brackets us opening closing ss ho h hc =>
      have hopening : opening ∈ opening :: (us ++ [closing]) := List.mem_cons_self ..
      have hclosing : closing ∈ opening :: (us ++ [closing]) := by simp
      obtain ⟨hbehind, hrest⟩ := List.pairwise_cons.mp hus.order
      have hbefore := (List.pairwise_append.mp hrest).2.2
      refine ⟨hus.slice_between hopening hclosing (hbehind _ (by simp)) ho hc, fun s hs => ?_⟩
      obtain ⟨⟨t, ht, hstart⟩, ⟨u, hu, hstop⟩, -⟩ := h.inside hus.tail.front s hs
      have hlt := hus.start_lt_stop hopening
      have hlt' := hus.start_lt_stop hclosing
      have hle := hbehind t (List.mem_append_left _ ht)
      have hle' := hbefore u hu closing (List.mem_singleton_self _)
      dsimp only
      omega

end Setting

-- ── Enums ────────────────────────────────────────────────────────────────────────

/-- The span of a value is that of its name, and that of its brackets holds its options. -/
structure EnumValue.Spans (source : List Char) (ts : List Token) (v : EnumValue) : Prop where
  written  : Occurs (EnumValue.Phrase source) ts v
  name     : Text.slice source v.span = v.name.toList
  settings : OccurEach (Setting.EntryPhrase source) ts v.settings
  brackets : ∀ span, v.settingsSpan = some span →
    (∃ inside, Text.slice source span = '[' :: (inside ++ [']'])) ∧
      ∀ s ∈ v.settings, span.start < s.span.start ∧ s.span.stop < span.stop

theorem EnumValue.Spans.mono {v : EnumValue} (h : v.Spans source us) (hts : us <:+: ts) : v.Spans source ts :=
  ⟨h.written.mono hts, h.name, h.settings.mono hts, h.brackets⟩

theorem EnumValue.Phrase.inside {v : EnumValue} (h : EnumValue.Phrase source us v) (hus : Ordered source us) :
    Inside us v.span := by
  obtain ⟨-, span, -, -, -⟩ := h
  rw [span]
  exact inside_of_mem hus (List.mem_cons_self ..)

theorem EnumValue.Phrase.spans {v : EnumValue} (h : EnumValue.Phrase source us v) (hus : Ordered source us) :
    v.Spans source us := by
  have hwritten := Occurs.of_phrase h
  cases h with
  | @intro N M S name equals semicolon v hname span hequals settings hsemicolon =>
      have hS : S <:+: name :: equals :: (N ++ (M ++ (S ++ [semicolon]))) :=
        ⟨name :: equals :: (N ++ M), [semicolon], by simp⟩
      refine ⟨hwritten, ?_, settings.occurEach.mono hS, fun span hspan => ?_⟩
      · rw [span]
        exact hus.slice_name (List.mem_cons_self ..) hname
      · rw [hspan] at settings
        exact settings.brackets_hold (hus.part hS)

namespace EnumDef

/-- The options and values of an enum stand among tokens, in order and apart from each other. -/
structure Body.Spans (source : List Char) (us : List Token) (body : Body) : Prop where
  settings         : ∀ s ∈ body.settings, Occurs (Setting.StatementPhrase source) us s ∧ Inside us s.span
  values           : ∀ v ∈ body.values, v.Spans source us ∧ Inside us v.span
  settings_ordered : (body.settings.map Setting.span).Pairwise Span.Before
  values_ordered   : (body.values.map EnumValue.span).Pairwise Span.Before
  apart            : ∀ s ∈ body.settings, ∀ v ∈ body.values, s.span.Before v.span ∨ v.span.Before s.span

variable {body : Body}

theorem Body.Spans.mono (h : body.Spans source us) (hts : us <:+: ts) : body.Spans source ts := by
  refine { h with settings := fun s hs => ?_, values := fun v hv => ?_ }
  · exact ⟨(h.settings s hs).1.mono hts, (h.settings s hs).2.mono hts.subset⟩
  · exact ⟨(h.values v hv).1.mono hts, (h.values v hv).2.mono hts.subset⟩

/-- The body of an enum goes on behind what has been read of it. -/
theorem BodyPhrase.spans (h : BodyPhrase source us body) (hus : Ordered source us) : body.Spans source us := by
  induction h with
  | nil =>
      exact ⟨List.forall_mem_nil _, List.forall_mem_nil _, List.Pairwise.nil, List.Pairwise.nil, List.forall_mem_nil _⟩
  | @skip us body h vs ih => exact (ih hus.front).mono (List.prefix_append us vs).isInfix
  | @setting us vs body s h hs ih =>
      have hbody := ih hus.front
      have hinside := hs.covers.inside hus.back
      obtain ⟨settings, values, -, values_ordered, apart⟩ := hbody.mono (List.prefix_append us vs).isInfix
      have hsuffix : vs <:+: us ++ vs := (List.suffix_append us vs).isInfix
      refine ⟨?_, values, ?_, values_ordered, ?_⟩
      · refine List.forall_mem_append.mpr ⟨settings, List.forall_mem_singleton.mpr ?_⟩
        exact ⟨(Occurs.of_phrase hs).mono hsuffix, hinside.mono hsuffix.subset⟩
      · exact Span.pairwise_concat hbody.settings_ordered fun x hx => (hbody.settings x hx).2.before hinside hus
      · refine List.forall_mem_append.mpr ⟨apart, List.forall_mem_singleton.mpr fun v hv => ?_⟩
        exact .inr ((hbody.values v hv).2.before hinside hus)
  | @value us vs body v h hv ih =>
      have hbody := ih hus.front
      have hinside := hv.inside hus.back
      obtain ⟨settings, values, settings_ordered, -, apart⟩ := hbody.mono (List.prefix_append us vs).isInfix
      have hsuffix : vs <:+: us ++ vs := (List.suffix_append us vs).isInfix
      refine ⟨settings, ?_, settings_ordered, ?_, fun s hs => ?_⟩
      · refine List.forall_mem_append.mpr ⟨values, List.forall_mem_singleton.mpr ?_⟩
        exact ⟨(hv.spans hus.back).mono hsuffix, hinside.mono hsuffix.subset⟩
      · exact Span.pairwise_concat hbody.values_ordered fun x hx => (hbody.values x hx).2.before hinside hus
      · refine List.forall_mem_append.mpr ⟨apart s hs, List.forall_mem_singleton.mpr ?_⟩
        exact .inl ((hbody.settings s hs).2.before hinside hus)

/-- The spans of an enum are those of its keyword and its braces, in this order; its options and values are
    between the braces, in order and apart from each other. -/
structure Spans (source : List Char) (ts : List Token) (e : EnumDef) : Prop where
  written : Occurs (Phrase source) ts e
  keyword : Text.slice source e.keyword = "enum".toList
  opening : Text.slice source e.opening = ['\x7b']
  closing : Text.slice source e.closing = ['\x7d']
  ordered : e.keyword.Before e.opening ∧ e.opening.Before e.closing
  body    : Body.Spans source ts ⟨e.settings, e.values⟩
  between : ∀ span ∈ e.settings.map Setting.span ++ e.values.map EnumValue.span,
    e.opening.Before span ∧ span.Before e.closing

/-- **The spans of an enum are where its tokens are.** -/
theorem spans_of_occurs {e : EnumDef} (h : Occurs (Phrase source) ts e) (hts : Ordered source ts) :
    e.Spans source ts := by
  have hwritten := h
  obtain ⟨us, hinfix, hphrase⟩ := h
  have hus := hts.part hinfix
  cases hphrase with
  | @intro B keyword name opening closing e hkeyword hname hopening body hclosing spans =>
      obtain ⟨hkeywordSpan, hopeningSpan, hclosingSpan⟩ := spans
      have hbraced : Ordered source (opening :: (B ++ [closing])) := hus.tail.tail
      have hbody := body.spans hbraced.tail.front
      have hfront : Ordered source (opening :: B) := hbraced.part ⟨[], [closing], rfl⟩
      have hinside : ∀ span ∈ e.settings.map Setting.span ++ e.values.map EnumValue.span, Inside B span := by
        simp only [List.forall_mem_append, List.forall_mem_map]
        exact ⟨fun s hs => (hbody.settings s hs).2, fun v hv => (hbody.values v hv).2⟩
      have hopeningInside : Inside [opening] opening.span :=
        inside_of_mem (hfront.part ⟨[], B, rfl⟩) (List.mem_singleton_self opening)
      have hclosingInside := inside_of_mem hbraced.tail.back (List.mem_singleton_self closing)
      refine ⟨hwritten, ?_, ?_, ?_, ⟨?_, ?_⟩, hbody.mono ?_, fun span hspan => ⟨?_, ?_⟩⟩
      · rw [hkeywordSpan]
        exact hus.slice_name (List.mem_cons_self ..) hkeyword
      · rw [hopeningSpan]
        exact hbraced.slice_symbol (List.mem_cons_self ..) hopening
      · rw [hclosingSpan]
        exact hbraced.slice_symbol (by simp) hclosing
      · rw [hkeywordSpan, hopeningSpan]
        exact (List.pairwise_cons.mp hus.order).1 opening (by simp)
      · rw [hopeningSpan, hclosingSpan]
        exact (List.pairwise_cons.mp hbraced.order).1 closing (by simp)
      · exact List.IsInfix.trans ⟨[keyword, name, opening], [closing], by simp⟩ hinfix
      · rw [hopeningSpan]
        exact hopeningInside.before (hinside span hspan) hfront
      · rw [hclosingSpan]
        exact (hinside span hspan).before hclosingInside hbraced.tail

end EnumDef

-- ── Fields ───────────────────────────────────────────────────────────────────────

theorem TypeRef.word_ofName (name : String) : (TypeRef.ofName name).word = name := by
  unfold ofName
  split
  · next scalar h =>
      have hkeyword := List.find?_some h
      exact eq_of_beq hkeyword
  · rfl

/-- The span of the type of a field, or of the values of a map, is that of its name. -/
structure Field.Spans (source : List Char) (ts : List Token) (f : Field) : Prop where
  written  : Occurs (Field.Phrase source) ts f
  type     : Text.slice source f.typeSpan = f.type.target.word.toList
  settings : OccurEach (Setting.EntryPhrase source) ts f.settings

theorem Field.TypePhrase.slice {type : FieldType} {span : Span} (h : Field.TypePhrase us type span)
    (hus : Ordered source us) : Text.slice source span = type.target.word.toList := by
  cases h with
  | @single t name h =>
      show _ = (TypeRef.ofName name).word.toList
      rw [TypeRef.word_ofName]
      exact hus.slice_name (List.mem_singleton_self t) h
  | @map _ _ _ _ value _ _ name _ _ _ _ _ _ h _ =>
      show _ = (TypeRef.ofName name).word.toList
      rw [TypeRef.word_ofName]
      exact hus.slice_name (by simp) h

theorem Field.spans_of_occurs {f : Field} (h : Occurs (Field.Phrase source) ts f) (hts : Ordered source ts) :
    f.Spans source ts := by
  have hwritten := h
  obtain ⟨us, hinfix, hphrase⟩ := h
  cases hphrase with
  | @intro L T N S name equals semicolon f settingsSpan label type hname hequals settings hsemicolon =>
      have hS : S <:+: L ++ (T ++ name :: equals :: (N ++ (S ++ [semicolon]))) :=
        ⟨L ++ (T ++ name :: equals :: N), [semicolon], by simp⟩
      exact ⟨hwritten, type.slice (hts.part hinfix).back.front, settings.occurEach.mono (hS.trans hinfix)⟩

-- ── Schemas ──────────────────────────────────────────────────────────────────────

/-- **Every span of a schema names the text it stands for.** That of a field is the name of its type, or of the
    type of the values of a map; those of an enum are its keyword and its braces, with its options and values in
    order between them; those of a value are its name, and the brackets around its options. The span of an option
    reaches from the first token of its name to the last of its value, or from `option` to the semicolon. -/
theorem Schema.spans_parse {source : String} {s : Schema} (h : parse source = .ok s) :
    ∃ ts, tokenize source = .ok ts ∧
      (∀ x ∈ s.fieldsIn, x.2.Spans source.toList (significant ts)) ∧
      (∀ x ∈ s.enumsIn, x.2.Spans source.toList (significant ts)) ∧
      OccurEach (Setting.StatementPhrase source.toList) (significant ts) s.settings ∧
      ∀ x ∈ s.messagesIn, OccurEach (Setting.StatementPhrase source.toList) (significant ts) x.2.settings := by
  obtain ⟨ts, htokens, hwritten⟩ := writtenIn_parse h
  have hordered := Ordered.of_tokenize htokens
  refine ⟨ts, htokens, fun x hx => ?_, fun x hx => ?_, hwritten.settings, hwritten.of_messagesIn⟩
  · exact Field.spans_of_occurs (hwritten.declares.of_fieldsIn x hx) hordered
  · exact EnumDef.spans_of_occurs (hwritten.declares.of_enumsIn x hx) hordered

/-- Types that are words of the language, the values of a map, and options with comments among their tokens. -/
def scatteredSpans : String :=
  "option (a.b).c /* name */ = \"d\" // first\n" ++
  "  'e'; // second\n" ++
  "enum /* é */ Mode \x7b // values\n" ++
  "  M = 1 [ /* since */ (f) = - /* one */ 1 , deprecated = true ];\n" ++
  "  option g = \x7b h \x7b i: 2 \x7d \x7d;\n" ++
  "  S = -2;\n" ++
  "\x7d\n" ++
  "message Hart \x7b\n" ++
  "  option deprecated = true;\n" ++
  "  optional optional = 1;\n" ++
  "  map < string, // key\n" ++
  "    .Mode > modes = 2 [packed = false];\n" ++
  "  oneof choice \x7b repeated n = 3; \x7d\n" ++
  "\x7d\n"

/-- The texts that the spans of a schema cut out of a source: of the types, of the options of values with their
    brackets, and of the options in statements. -/
def Schema.spanTexts (source : String) (s : Schema) : List String :=
  let text := fun span => String.ofList (Text.slice source.toList span)
  (s.fieldsIn.map fun x => text x.2.typeSpan) ++
    (s.enumsIn.flatMap fun x => x.2.values.flatMap fun v =>
      text v.span :: (v.settingsSpan.toList.map text ++ v.settings.map fun o => text o.span)) ++
    (s.enumsIn.flatMap fun x => x.2.settings.map fun o => text o.span) ++
    (s.settings.map fun o => text o.span) ++
    s.messagesIn.flatMap fun x => x.2.settings.map fun o => text o.span

/-- Its spans cut out what they stand for. -/
theorem Schema.spans_parse_scatteredSpans :
    ∃ s ts, Schema.parse scatteredSpans = .ok s ∧ tokenize scatteredSpans = .ok ts ∧
      s.spanTexts scatteredSpans =
        ["optional", ".Mode", "repeated", "M", "[ /* since */ (f) = - /* one */ 1 , deprecated = true ]",
          "(f) = - /* one */ 1", "deprecated = true", "S", "option g = \x7b h \x7b i: 2 \x7d \x7d;",
          "option (a.b).c /* name */ = \"d\" // first\n  'e';", "option deprecated = true;"] ∧
      (∀ x ∈ s.fieldsIn, x.2.Spans scatteredSpans.toList (significant ts)) ∧
      (∀ x ∈ s.enumsIn, x.2.Spans scatteredSpans.toList (significant ts)) ∧
      OccurEach (Setting.StatementPhrase scatteredSpans.toList) (significant ts) s.settings ∧
      ∀ x ∈ s.messagesIn,
        OccurEach (Setting.StatementPhrase scatteredSpans.toList) (significant ts) x.2.settings := by
  have hcomputed : (Schema.parse scatteredSpans).toOption.map (Schema.spanTexts scatteredSpans) =
      some ["optional", ".Mode", "repeated", "M", "[ /* since */ (f) = - /* one */ 1 , deprecated = true ]",
        "(f) = - /* one */ 1", "deprecated = true", "S", "option g = \x7b h \x7b i: 2 \x7d \x7d;",
        "option (a.b).c /* name */ = \"d\" // first\n  'e';", "option deprecated = true;"] := by
    rw [Schema.parse_eq]
    delta scatteredSpans spanTexts
    simp only [String.toList_append, String.reduceToList]
    decide +kernel
  cases h : Schema.parse scatteredSpans with
  | error e => rw [h] at hcomputed; cases hcomputed
  | ok s =>
      obtain ⟨ts, hts, hfields, henums, hsettings, hmessages⟩ := Schema.spans_parse h
      rw [h] at hcomputed
      exact ⟨s, ts, rfl, hts, Option.some.inj hcomputed, hfields, henums, hsettings, hmessages⟩

end FlagSchema
