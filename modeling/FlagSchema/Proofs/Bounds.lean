import FlagSchema.Proofs.Loops
import FlagSchema.Proofs.Offences
import FlagSchema.Proofs.Scanning
import FlagSchema.Proofs.Texts

/-!
# Bounds

Whatever a source is, scanning, reading and lowering it come to a result or to one of their errors. On the way no
index is out of range, no slice cuts a character in two, and every repetition takes a character or a token before it
goes on.

* **`Schema.ReadsWithin`**, **`Schema.readsWithin`**: reading stays within the tokens of a source.
* **`EnumDef.SlicesWithin`**: what is cut out of a source for an enum.
* **`Schema.LowersWithin`**, **`Schema.lowersWithin`**: lowering stays within the source.
* **`lower_within`**: the three stages together.
-/

namespace FlagSchema

open Token Reader

variable {ts : List Token}

-- ── Reading ──────────────────────────────────────────────────────────────────────

/-- The text of a value in braces is cut out between the brace that opens it and the one that closes it. -/
theorem Constant.exists_slice?_of_read {source : List Char} (hts : Ordered source ts) {s s' : Stream} {k : Nat}
    (hs : s.At ts k) (hbrace : s.kindAt? 0 = some (.symbol '\x7b')) {x : Constant × Nat}
    (h : Constant.read source s = .ok (x, s')) :
    ∃ opening ∈ ts, ∃ closing ∈ ts, ∃ inside,
      Text.slice? source ⟨opening.span.stop, closing.span.start⟩ = some inside ∧
        x = (.aggregate (String.ofList (Text.trim inside)), closing.span.stop) := by
  obtain ⟨kind, s₁, h1, h2⟩ := exists_of_bind h
  obtain ⟨rfl, hkind⟩ := eq_of_peek? h1
  cases hbrace.symm.trans hkind
  obtain ⟨opening, s₂, h3, h4⟩ := exists_of_bind h2
  obtain ⟨closing, s₃, h5, h6⟩ := exists_of_bind h4
  cases h6
  obtain ⟨t, hbehind, rfl⟩ := EndsWith.next _ h3
  obtain ⟨k₁, hk₁, hs₁, hopening, -⟩ := hs.of_behind hbehind
  obtain ⟨u, hbehind', rfl⟩ := endsWith_skipBraces h5
  obtain ⟨k₂, hk₂, -, hclosing, -⟩ := hs₁.of_behind hbehind'
  have hle := hts.stop_le_start hopening hclosing (by omega)
  have hmem := List.mem_of_getElem? hopening
  have hmem' := List.mem_of_getElem? hclosing
  exact ⟨opening, hmem, closing, hmem', _, hts.slice?_between hmem hmem' hle, rfl⟩

namespace Schema

/-- Reading stays within the tokens of a source. The reader of a schema starts at the first of them and is built of
    operations that move an index forwards, to the number of the tokens at most. Repeated steps, statements and
    elements of messages take a token before the next one is made, and they come to an end. -/
structure ReadsWithin (source : String) (ts : List Token) : Prop where
  starts     : (Stream.ofTokens ts).At ts 0
  built      : ∀ schema, Built (step source.toList schema)
  indices    : ∀ {α : Type} {r : Reader α}, Built r → ∀ (s : Stream) k, s.At ts k → ∀ a s', r s = .ok (a, s') →
    ∃ k', k ≤ k' ∧ s'.At ts k'
  /-- Looking ahead finds the significant tokens from the index on. -/
  looks      : ∀ (s : Stream) k, s.At ts k → ∀ n, s.kindAt? n = ((significant (ts.drop k))[n]?).map Token.kind
  /-- An option in brackets ends with the token in front of the index. There is one, and it is significant. -/
  previous   : ∀ (s : Stream) k, s.At ts k → ∀ x s', Setting.readEntry source.toList s = .ok (x, s') →
    ∃ k' t, k < k' ∧ s'.At ts k' ∧ ts[k' - 1]? = some t ∧ t.kind.isComment = false ∧ x.span.stop = t.span.stop
  /-- A value in braces is a slice of the source. -/
  aggregates : ∀ (s : Stream) k, s.At ts k → s.kindAt? 0 = some (.symbol '\x7b') →
    ∀ x s', Constant.read source.toList s = .ok (x, s') →
      ∃ opening ∈ ts, ∃ closing ∈ ts, ∃ inside,
        Text.slice? source.toList ⟨opening.span.stop, closing.span.start⟩ = some inside ∧
          x = (.aggregate (String.ofList (Text.trim inside)), closing.span.stop)
  /-- What is behind the leading zero of an integer is a slice of its spelling. -/
  octals     : ∀ t ∈ ts, ∀ spelling, t.kind = .int spelling → ∀ c cs, spelling.toList = '0' :: c :: cs →
    Text.slice? spelling.toList ⟨1, Text.byteSize spelling.toList⟩ = some (c :: cs)
  loops      : ∀ {σ α : Type} {step : σ → Reader (σ ⊕ α)} (h : Loop source.toList step),
    LoopsWithin ts step h.proceeds
  elements   : ∀ (s : Stream) k, s.At ts k → ∀ x s', Message.readElement source.toList s = .ok (x, s') →
    ∃ k', k < k' ∧ s'.At ts k'
  /-- Statements and elements are read one after another, until the input ends or one of them fails. -/
  ends       : ∃ n b s k, Progress.advances source.toList n {} (Stream.ofTokens ts) = .ok (b, s) ∧ n ≤ k ∧ s.At ts k ∧
    ((b.opened = [] ∧ s.tokens = [] ∧ parse source = .ok b.schema) ∨
      ∃ e, Progress.advance source.toList b s = .error e ∧ parse source = .error e)

/-- **Reading stays within the tokens of every source.** -/
theorem readsWithin {source : String} (h : tokenize source = .ok ts) : ReadsWithin source ts where
  starts     := Stream.at_ofTokens ts
  built      := built_step source.toList
  indices    := fun hr _ _ hs _ _ hread => hr.keeps.at hs hread
  looks      := fun _ _ hs n => hs.kindAt? n
  previous   := by
    intro s k hs x s' hread
    obtain ⟨t, hbehind, hstop⟩ := Setting.endsWith_readEntry source.toList hread
    obtain ⟨k', hlt, hs', ht, hsignificant⟩ := hs.of_behind hbehind
    exact ⟨k', t, hlt, hs', ht, hsignificant, hstop⟩
  aggregates := fun _ _ hs hbrace _ _ hread => Constant.exists_slice?_of_read (.of_tokenize_all h) hs hbrace hread
  octals     := by
    intro t _ spelling _ c cs hspelling
    have hslice := Text.slice?_append ['0'] (c :: cs) []
    rw [List.append_nil] at hslice
    rw [hspelling]
    exact hslice
  loops      := fun hloop => hloop.loopsWithin ts
  elements   := fun _ _ hs _ _ hread =>
    (Message.built_readElement source.toList).keeps.at_of_takes (Message.takes_readElement source.toList) hs hread
  ends       := by
    obtain ⟨n, b, s, k, hrun, hle, hs, hend⟩ :=
      Progress.exists_advances_at source.toList {} (Stream.at_ofTokens ts)
    refine ⟨n, b, s, k, hrun, by omega, hs, ?_⟩
    rw [Progress.parse_eq_finish h]
    rcases hend with ⟨hopened, hempty, s₁, hfinish⟩ | ⟨e, hfails, hfinish⟩
    · exact .inl ⟨hopened, hempty, by rw [hfinish]; rfl⟩
    · exact .inr ⟨e, hfails, by rw [hfinish]; rfl⟩

end Schema

-- ── Lowering ─────────────────────────────────────────────────────────────────────

/-- What the body of a set of flags takes from the source is made of slices: the options, those of the values with
    their brackets, and what is in front of the keyword and of the values on their lines. -/
structure EnumDef.SlicesWithin (source : List Char) (e : EnumDef) : Prop where
  settings : ∀ s ∈ e.settings, Text.slice? source s.span = some (Text.slice source s.span)
  brackets : ∀ v ∈ e.values, ∀ span, v.settingsSpan = some span →
    Text.slice? source span = some (Text.slice source span)
  keyword  : Edit.lineBefore? source e.keyword.start = some (Edit.lineBefore source e.keyword.start)
  values   : ∀ v ∈ e.values, Edit.lineBefore? source v.span.start = some (Edit.lineBefore source v.span.start)

section

variable {source : List Char}

/-- The brackets around options start and stop where tokens do. -/
theorem Setting.ListPhrase.inside {us : List Token} {ss : List Setting} {span : Span}
    (h : ListPhrase source us ss (some span)) (hus : Ordered source us) : Inside us span := by
  cases h with
  | @brackets us opening closing ss ho h hc =>
      exact Covers.inside ⟨startsAt_cons _ _, stopsAt_concat (opening :: us) closing⟩ hus

theorem EnumValue.slice?_brackets {v : EnumValue} (h : Occurs (EnumValue.Phrase source) ts v)
    (hts : Ordered source ts) {span : Span} (hspan : v.settingsSpan = some span) :
    Text.slice? source span = some (Text.slice source span) := by
  obtain ⟨us, hpart, hphrase⟩ := h
  cases hphrase with
  | @intro N M S name equals semicolon v hname hnameSpan hequals settings hsemicolon =>
      have hS : S <:+: name :: equals :: (N ++ (M ++ (S ++ [semicolon]))) :=
        ⟨name :: equals :: (N ++ M), [semicolon], by simp⟩
      have hS' := hts.part (hS.trans hpart)
      rw [hspan] at settings
      exact ((settings.inside hS').mono (hS.trans hpart).subset).slice? hts

/-- The keyword of an enum is one of its tokens. -/
theorem EnumDef.inside_keyword {e : EnumDef} (h : Occurs (EnumDef.Phrase source) ts e) (hts : Ordered source ts) :
    Inside ts e.keyword := by
  obtain ⟨us, hpart, hphrase⟩ := h
  cases hphrase with
  | intro _ _ _ _ _ spans =>
      rw [spans.1]
      exact inside_of_mem hts (hpart.subset (List.mem_cons_self ..))

theorem EnumDef.slicesWithin {e : EnumDef} (h : Occurs (EnumDef.Phrase source) ts e) (hts : Ordered source ts) :
    e.SlicesWithin source := by
  have hbody := (spans_of_occurs h hts).body
  refine ⟨fun s hs => (hbody.settings s hs).2.slice? hts, fun v hv span hspan => ?_, ?_, fun v hv => ?_⟩
  · exact EnumValue.slice?_brackets (hbody.values v hv).1.written hts hspan
  · exact Edit.lineBefore?_of_isBoundary ((inside_keyword h hts).isBoundary_start hts)
  · exact Edit.lineBefore?_of_isBoundary ((hbody.values v hv).2.isBoundary_start hts)

/-- The scope around another one is in front of its last dot. -/
theorem parentScope_isPrefix (scope : List Char) : parentScope scope <+: scope := by
  have hsuffix := (List.drop_suffix 1 _).trans (List.dropWhile_suffix (l := scope.reverse) (· ≠ '.'))
  rw [← List.reverse_prefix, List.reverse_reverse] at hsuffix
  exact hsuffix

end

namespace Schema

/-- Lowering a schema stays within its source, and it ends: with a new text that is made of slices of the source and
    of the texts of the edits, or with the error of the first offence. -/
structure LowersWithin (source : String) (s : Schema) : Prop where
  enums  : ∀ x ∈ s.enumsIn, x.2.SlicesWithin source.toList
  /-- A scope around another one, in which a name is looked up, is a slice of it. -/
  scopes : ∀ scope, Text.slice? scope ⟨0, Text.byteSize (parentScope scope)⟩ = some (parentScope scope)
  ends   : (∃ low, (FlagSchema.lower source).result = .ok low ∧
      Edit.splice? source.toList 0 (Edit.sorted low.edits) = some low.text.toList) ∨
    ∃ e, (FlagSchema.lower source).result = .error e ∧
      (FirstOffence EnumOffends s.enumsIn e ∨ FirstOffence s.FieldOffends s.fieldsIn e)

/-- **Lowering stays within every source.** -/
theorem lowersWithin {source : String} {s : Schema} (h : parse source = .ok s) : s.LowersWithin source := by
  obtain ⟨ts, htokens, hwritten⟩ := writtenIn_parse h
  refine ⟨fun x hx => ?_, fun scope => Text.slice?_of_prefix (parentScope_isPrefix scope), ?_⟩
  · exact EnumDef.slicesWithin (hwritten.declares.of_enumsIn x hx) (.of_tokenize htokens)
  · cases hlower : (FlagSchema.lower source).result with
    | ok low =>
        obtain ⟨s', ps, tail, -, -, -, -, -, -, -, -, hperm, hwindows, -⟩ := exists_pieces hlower
        refine .inl ⟨low, rfl, ?_⟩
        rw [hwindows.sorted_eq hperm]
        exact hwindows.splice? (List.nil_append _).symm rfl
    | error e =>
        rw [result_lower h] at hlower
        refine .inr ⟨e, rfl, ?_⟩
        exact (lower_eq_error_iff.mp hlower).imp id And.right

end Schema

-- ── The three stages ─────────────────────────────────────────────────────────────

/-- **Every source is scanned, read and lowered within its bounds.** Each stage comes to a result or to one of its
    errors, no index or slice is out of range, and what is repeated has taken a character or a token. -/
theorem lower_within (source : String) :
    ScansWithin source ∧ (∀ ts, tokenize source = .ok ts → Schema.ReadsWithin source ts) ∧
      ∀ s, Schema.parse source = .ok s → s.LowersWithin source :=
  ⟨scansWithin source, fun _ => Schema.readsWithin, fun _ => Schema.lowersWithin⟩

theorem lower_within_hart :
    ∃ ts s low, tokenize hart = .ok ts ∧ Schema.parse hart = .ok s ∧ (lower hart).result = .ok low ∧
      Schema.ReadsWithin hart ts ∧ s.LowersWithin hart := by
  obtain ⟨low, hlow, -⟩ := lower_hart
  obtain ⟨s, hs, -⟩ := lower_inv hlow
  obtain ⟨ts, hts, -⟩ := Schema.writtenIn_parse hs
  obtain ⟨-, hreads, hlowers⟩ := lower_within hart
  exact ⟨ts, s, low, hts, hs, hlow, hreads ts hts, hlowers s hs⟩

end FlagSchema
