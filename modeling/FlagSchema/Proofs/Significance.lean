import FlagSchema.Proofs.Agreement
import FlagSchema.Proofs.Contents
import FlagSchema.Proofs.Schemas

/-!
# Parsing sees only significant tokens

Messages and schemas are read alike from any two sources whose significant tokens have the same kinds, so
comments, line breaks and places decide nothing but what a schema remembers of them. The report of lowering
forgets even that.

* **`Message.agrees_readBody`**, **`Schema.agrees_step`**: the readers of messages and of statements.
* **`Schema.ofTokens_of_kinds`**: tokens of the same kinds are read as schemas of the same gist, or refused
  with the same error.
* **`Schema.report_eq_of_gist`**: schemas of the same gist have the same report.
* **`parse_of_significant`**: both, for two sources.
-/

namespace FlagSchema

open Token Reader

variable {source source' : List Char}

-- ── Messages ─────────────────────────────────────────────────────────────────────

namespace Message

/-- An element without its places and comments. -/
def Element.gist : Element → Element
  | .close         => .close
  | .skip          => .skip
  | .nested name _ => .nested name {}
  | .enum e        => .enum e.gist
  | .setting s     => .setting s.gist
  | .oneof name fs => .oneof name (fs.map Field.gist)
  | .field f       => .field f.gist

theorem agrees_oneofStep (name : String) {fs fs' : List Field} (h : fs.map Field.gist = fs'.map Field.gist) :
    Agrees (Sum.map (List.map Field.gist) (List.map Field.gist)) (oneofStep source name fs)
      (oneofStep source' name fs') := by
  refine Agrees.peek?.bind_id fun kind => ?_
  cases kind with
  | none => exact .refuse _
  | some kind =>
      cases kind with
      | symbol c =>
          refine .ite ?_ (.ite ?_ (.refuse _))
          · exact (Agrees.next _).bind fun _ _ _ => .pure (congrArg Sum.inr h)
          · exact (Agrees.next _).bind fun _ _ _ => .pure (congrArg Sum.inl h)
      | ident word =>
          refine .ite ?_ ?_
          · exact Setting.agrees_readStatement.bind fun _ _ _ => .pure (congrArg Sum.inl h)
          · exact (Field.agrees_read _).bind fun _ _ hf => .pure (congrArg Sum.inl (map_concat h hf))
      | _ => exact .refuse _

theorem agrees_readOneof : Agrees Element.gist (readOneof source) (readOneof source') := by
  refine (Agrees.name _).bind_formed fun name _ _ _ => (Agrees.symbol _).bind fun _ _ _ => ?_
  have hfields : Agrees (List.map Field.gist)
      (iterate (oneofStep source name) (.of_takes (takes_oneofStep source name)) [])
      (iterate (oneofStep source' name) (.of_takes (takes_oneofStep source' name)) []) :=
    .iterate (List.map Field.gist) (fun _ _ h => agrees_oneofStep name h) rfl
  exact hfields.bind fun _ _ h => .pure (congrArg (Element.oneof name) h)

theorem agrees_readHead : Agrees Prod.fst readHead readHead :=
  (Agrees.name _).bind_formed fun _ _ _ _ => (Agrees.symbol _).bind fun _ _ _ => .pure rfl

theorem agrees_readNamed (word : String) :
    Agrees Element.gist (readNamed source word) (readNamed source' word) := by
  refine .ite ?_ (.ite ?_ (.ite ?_ (.ite ?_ (.ite ?_ (.ite ?_ ?_)))))
  · exact (Agrees.next _).bind fun _ _ _ => agrees_readHead.bind_fst fun _ _ _ => .pure rfl
  · exact (Agrees.next _).bind fun _ _ _ => (EnumDef.agrees_read _ _).bind fun _ _ h =>
      .pure (congrArg Element.enum h)
  · exact Setting.agrees_readStatement.bind fun _ _ h => .pure (congrArg Element.setting h)
  · exact (Agrees.next _).bind fun _ _ _ => agrees_readOneof
  · exact (Agrees.next _).bind fun _ _ _ => (agrees_skipPast _).bind fun _ _ _ => .pure rfl
  · exact (Agrees.next _).bind fun _ _ _ => agrees_skipBlock.bind fun _ _ _ => .pure rfl
  · exact (Field.agrees_read _).bind fun _ _ h => .pure (congrArg Element.field h)

theorem agrees_readElement : Agrees Element.gist (readElement source) (readElement source') := by
  refine Agrees.dropHeld.bind fun _ _ _ => Agrees.peek?.bind_id fun kind => ?_
  cases kind with
  | none => exact .refuse _
  | some kind =>
      cases kind with
      | symbol c =>
          refine .ite ?_ (.ite ?_ (.refuse _))
          · exact (Agrees.next _).bind fun _ _ _ => .pure rfl
          · exact (Agrees.next _).bind fun _ _ _ => .pure rfl
      | ident word => exact agrees_readNamed word
      | _ => exact .refuse _

/-- What has the same gist before an element has the same gist after it. -/
theorem gist_push (m : Message) (x : Element) : (m.push x).gist = m.gist.push x.gist := by
  rw [gist_eq, gist_eq m]
  cases x <;> simp [push, Element.gist]

theorem gist_pushMessage (m inner : Message) :
    (m.pushMessage inner).gist = m.gist.pushMessage inner.gist := by
  rw [gist_eq, gist_eq m, pushMessage, pushMessage, List.map_append]
  rfl

theorem Element.shape_gist (x : Element) : x.gist.shape = x.shape := by
  cases x <;> rfl

/-- **The body of a message is read alike wherever comments and line breaks fall.** -/
theorem agrees_readBody {m m' : Message} (h : m.gist = m'.gist) :
    Agrees gist (readBody source m) (readBody source' m') := by
  intro s s' hs
  -- A nested message makes the reader call itself on what its head has left: the induction is on that.
  induction hn : s.size using Nat.strong_induction_on generalizing m m' s s' with
  | _ n ih =>
  rw [readBody_bind, readBody_bind]
  rcases cases_of_shown (agrees_readElement hs) with
    ⟨x, s₁, x', s₁', h₁, h₁', hx, hkinds⟩ | ⟨e, e', h₁, h₁', herror⟩
  · rw [bind_ok h₁, bind_ok h₁']
    have hlt : s₁.size < s.size := takes_readElement source h₁
    have hshape : x.shape = x'.shape := by
      rw [← Element.shape_gist, hx, Element.shape_gist]
    rcases Element.shape_cases hshape with ⟨rfl, rfl⟩ | ⟨name, p, p', rfl, rfl⟩ | ⟨hadded, hadded'⟩
    · exact shown_ok h hkinds
    · have hempty : (Message.mk name p [] [] [] [] []).gist = (Message.mk name p' [] [] [] [] []).gist := by
        rw [gist_eq, gist_eq]
      have hinner := ih _ (hn ▸ hlt) hempty hkinds rfl
      rcases cases_of_shown hinner with
        ⟨inner, s₂, inner', s₂', h₂, h₂', hgist, hkinds₂⟩ | ⟨e, e', h₂, h₂', herror⟩
      · rw [readRest, readRest, bind_ok h₂, bind_ok h₂']
        have hlt₂ : s₂.size < s₁.size := takes_readBody source _ h₂
        refine ih _ (hn ▸ hlt₂.trans hlt) ?_ hkinds₂ rfl
        rw [gist_pushMessage, gist_pushMessage, h, hgist]
      · rw [readRest, readRest, bind_error h₂, bind_error h₂']
        exact congrArg Except.error herror
    · rw [readRest_of_shape hadded, readRest_of_shape hadded']
      refine ih _ (hn ▸ hlt) ?_ hkinds rfl
      rw [gist_push, gist_push, h, hx]
  · rw [bind_error h₁, bind_error h₁']
    exact congrArg Except.error herror

theorem agrees_read : Agrees gist (read source) (read source') := by
  refine agrees_readHead.bind_fst fun name p p' => agrees_readBody ?_
  rw [gist_eq, gist_eq]

end Message

-- ── Schemas ──────────────────────────────────────────────────────────────────────

namespace Schema

theorem agrees_readImport : Agrees id readImport readImport := by
  have hpath : Agrees id (readString .importPath >>= fun x => symbol ';' >>= fun _ => pure x.1)
      (readString .importPath >>= fun x => symbol ';' >>= fun _ => pure x.1) :=
    (agrees_readString _).bind_fst fun _ _ _ => (Agrees.symbol _).bind fun _ _ _ => .pure rfl
  exact .bind_accept hpath fun _ _ _ _ => hpath

/-- A statement without its places and comments. -/
def Item.gist : Item → Item
  | .setting s => .setting s.gist
  | .message m => .message m.gist
  | .enum e    => .enum e.gist
  | x          => x

theorem gist_push (s : Schema) (x : Item) : (s.push x).gist = s.gist.push x.gist := by
  cases x <;> simp [push, gist, Item.gist]

theorem agrees_readEdition : Agrees id readEdition readEdition :=
  (Agrees.symbol _).bind fun _ _ _ => (agrees_readString _).bind_fst fun _ _ _ =>
    (Agrees.symbol _).bind fun _ _ _ => .pure rfl

theorem agrees_readPackage : Agrees id readPackage readPackage :=
  (Agrees.name _).bind_formed fun _ _ _ _ => (Agrees.symbol _).bind fun _ _ _ => .pure rfl

theorem agrees_readItemNamed (word : String) :
    Agrees Item.gist (readItemNamed source word) (readItemNamed source' word) := by
  refine .ite ?_ (.ite ?_ (.ite ?_ (.ite ?_ (.ite ?_ (.ite ?_ (.ite ?_ (.refuse _)))))))
  · exact (Agrees.next _).bind fun _ _ _ => agrees_readEdition.bind_id fun _ => .pure rfl
  · exact (Agrees.next _).bind fun _ _ _ => agrees_readPackage.bind_id fun _ => .pure rfl
  · exact (Agrees.next _).bind fun _ _ _ => agrees_readImport.bind_id fun _ => .pure rfl
  · exact Setting.agrees_readStatement.bind fun _ _ h => .pure (congrArg Item.setting h)
  · exact (Agrees.next _).bind fun _ _ _ => Message.agrees_read.bind fun _ _ h =>
      .pure (congrArg Item.message h)
  · exact (Agrees.next _).bind fun _ _ _ => (EnumDef.agrees_read _ _).bind fun _ _ h =>
      .pure (congrArg Item.enum h)
  · exact (Agrees.next _).bind fun _ _ _ => agrees_skipBlock.bind fun _ _ _ => .pure rfl

theorem agrees_readItem : Agrees Item.gist (readItem source) (readItem source') := by
  refine Agrees.peek?.bind_id fun kind => ?_
  cases kind with
  | none => exact .refuse _
  | some kind =>
      cases kind with
      | symbol c => exact .ite ((Agrees.next _).bind fun _ _ _ => .pure rfl) (.refuse _)
      | ident word => exact agrees_readItemNamed word
      | _ => exact .refuse _

theorem agrees_step {s s' : Schema} (h : s.gist = s'.gist) :
    Agrees (Sum.map gist gist) (step source s) (step source' s') := by
  refine Agrees.dropHeld.bind fun _ _ _ => Agrees.atEnd.bind_id fun ended => .ite ?_ ?_
  · exact .pure (congrArg Sum.inr h)
  · rw [readStatement_eq, readStatement_eq, bind_assoc, bind_assoc]
    refine agrees_readItem.bind fun x x' hx => ?_
    rw [pure_bind, pure_bind]
    refine .pure (congrArg Sum.inl ?_)
    rw [gist_push, gist_push, h, hx]

/-- **The tokens of two sources are read alike if the significant ones have the same kinds.** -/
theorem ofTokens_of_kinds {source source' : List Char} {ts ts' : List Token}
    (h : (significant ts).map Token.kind = (significant ts').map Token.kind) :
    (∃ s s', ofTokens source ts = .ok s ∧ ofTokens source' ts' = .ok s' ∧ s.gist = s'.gist) ∨
      ∃ e e', ofTokens source ts = .error e ∧ ofTokens source' ts' = .error e' ∧ e.unplaced = e'.unplaced := by
  have hkinds : (Stream.ofTokens ts).kinds = (Stream.ofTokens ts').kinds := by
    rw [Stream.kinds_ofTokens, Stream.kinds_ofTokens, h]
  have hstatements : Agrees gist (iterate (step source) (proceeds_step source) {})
      (iterate (step source') (proceeds_step source') {}) :=
    .iterate gist (fun _ _ h => agrees_step h) rfl
  rw [ofTokens, ofTokens]
  rcases cases_of_shown (hstatements hkinds) with
    ⟨s, rest, s', rest', hrun, hrun', hgist, -⟩ | ⟨e, e', hrun, hrun', herror⟩
  · rw [hrun, hrun']
    exact .inl ⟨s, s', rfl, rfl, hgist⟩
  · rw [hrun, hrun']
    exact .inr ⟨e, e', rfl, rfl, herror⟩

end Schema

-- ── Reports ──────────────────────────────────────────────────────────────────────

namespace Schema

variable {s s' : Schema} {low low' : Lowered}

/-- **Schemas of the same gist have the same report.** -/
theorem report_eq_of_gist {source source' : List Char} (hgist : s.gist = s'.gist)
    (h : (s.lower source).result = .ok low) (h' : (s'.lower source').result = .ok low') :
    low.report = low'.report := by
  obtain ⟨hsets, hretyped, hpackage⟩ := Erasure.faithful_gist.report_lower h
  obtain ⟨hsets', hretyped', hpackage'⟩ := Erasure.faithful_gist.report_lower h'
  rw [← gist_eq_schema, hgist, gist_eq_schema] at hsets hretyped hpackage
  have hflagSets : low.report.flagSets = low'.report.flagSets := by
    refine List.right_unique_forall₂' ?_ hsets hsets'
    rintro x _ _ ⟨width, hwidth, rfl⟩ ⟨width', hwidth', rfl⟩
    rw [hwidth] at hwidth'
    cases hwidth'
    rfl
  have hreport : low.report = ⟨low.report.package, low.report.flagSets, low.report.retyped⟩ := rfl
  rw [hreport, hpackage, hflagSets, hretyped, ← hpackage', ← hretyped']

end Schema

-- ── Sources ──────────────────────────────────────────────────────────────────────

/-- **Parsing sees only significant tokens.** Where the tokens of two sources have the same kinds, comments
    apart, both are read, as schemas of the same gist, or both are refused, with the same error but for its
    position. When both can be lowered, the reports are the same. -/
theorem parse_of_significant {source source' : String} {ts ts' : List Token}
    (h : tokenize source = .ok ts) (h' : tokenize source' = .ok ts')
    (hkinds : (significant ts).map Token.kind = (significant ts').map Token.kind) :
    ((∃ s s', Schema.parse source = .ok s ∧ Schema.parse source' = .ok s' ∧ s.gist = s'.gist) ∨
        ∃ e e', Schema.parse source = .error e ∧ Schema.parse source' = .error e' ∧
          e.unplaced = e'.unplaced) ∧
      ∀ low low', (lower source).result = .ok low → (lower source').result = .ok low' →
        low.report = low'.report := by
  have hparse : (∃ s s', Schema.parse source = .ok s ∧ Schema.parse source' = .ok s' ∧ s.gist = s'.gist) ∨
      ∃ e e', Schema.parse source = .error e ∧ Schema.parse source' = .error e' ∧ e.unplaced = e'.unplaced := by
    rw [Schema.parse, h, Schema.parse, h']
    exact Schema.ofTokens_of_kinds hkinds
  refine ⟨hparse, fun low low' hlow hlow' => ?_⟩
  obtain ⟨s, hs, hlow⟩ := lower_inv hlow
  obtain ⟨s', hs', hlow'⟩ := lower_inv hlow'
  rcases hparse with ⟨g, g', hg, hg', hgist⟩ | ⟨e, -, he, -⟩
  · rw [hs] at hg
    rw [hs'] at hg'
    cases hg
    cases hg'
    exact Schema.report_eq_of_gist hgist hlow hlow'
  · rw [hs] at he
    cases he

/-- A source that is read has tokens. -/
theorem Schema.exists_tokenize {source : String} {s : Schema} (h : parse source = .ok s) :
    ∃ ts, tokenize source = .ok ts := by
  rw [parse] at h
  cases hts : tokenize source with
  | error e => rw [hts] at h; cases h
  | ok ts => exact ⟨ts, rfl⟩

/-- A set of flags on one line. -/
def oneMode : String := "enum E \x7b option (bitmap) = 1; M = 0; \x7d"

/-- The same set with a comment behind its brace. -/
def oneModeCommented : String := "enum E \x7b // modes\n option (bitmap) = 1; M = 0; \x7d"

/-- The comment makes no difference to the schema and to its report. -/
theorem parse_of_significant_oneMode :
    ∃ s s' low low', Schema.parse oneMode = .ok s ∧ Schema.parse oneModeCommented = .ok s' ∧
      s.gist = s'.gist ∧ (lower oneMode).result = .ok low ∧ (lower oneModeCommented).result = .ok low' ∧
      low.report = low'.report := by
  have hok : (lower oneMode).result.isOk = true ∧ (lower oneModeCommented).result.isOk = true ∧
      ((tokenize oneMode).toOption.map fun ts => (significant ts).map Token.kind) =
        (tokenize oneModeCommented).toOption.map fun ts => (significant ts).map Token.kind := by
    rw [lower_eq, lower_eq, tokenize, tokenize]
    delta oneMode oneModeCommented
    simp only [String.reduceToList]
    decide +kernel
  obtain ⟨hlow, hlow', hkinds⟩ := hok
  obtain ⟨low, hlow⟩ := exists_of_isOk hlow
  obtain ⟨low', hlow'⟩ := exists_of_isOk hlow'
  obtain ⟨s, hs, -⟩ := lower_inv hlow
  obtain ⟨s', hs', -⟩ := lower_inv hlow'
  obtain ⟨ts, hts⟩ := Schema.exists_tokenize hs
  obtain ⟨ts', hts'⟩ := Schema.exists_tokenize hs'
  rw [hts, hts'] at hkinds
  obtain ⟨hparse, hreport⟩ := parse_of_significant hts hts' (Option.some.inj hkinds)
  rcases hparse with ⟨g, g', hg, hg', hgist⟩ | ⟨e, -, he, -⟩
  · exact ⟨g, g', low, low', hg, hg', hgist, hlow, hlow', hreport low low' hlow hlow'⟩
  · rw [hs] at he
    cases he

end FlagSchema
