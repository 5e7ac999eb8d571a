import FlagSchema.Proofs.Origins
import FlagSchema.Proofs.Phrases
import FlagSchema.Proofs.Printing
import FlagSchema.Proofs.Traversals

/-!
# Declarations and their tokens

Fields and enums are phrases of tokens as their options are, and so is all that a message or a schema holds:
every declaration that is read stands for tokens next to each other in the source.

* **`Field.Phrase`**, **`EnumValue.Phrase`**, **`EnumDef.Phrase`**: the tokens of a field, of a value and of an
  enum, with the spans that they record.
* **`Occurs`**: tokens next to each other among others stand for something.
* **`Message.WrittenIn`**, **`Schema.WrittenIn`**: so do all declarations of a message or a schema.
* **`Schema.writtenIn_parse`**: a schema that is parsed is written in the tokens of its source.
-/

namespace FlagSchema

open Token Reader

variable {front : List Token → Prop} {us vs ts : List Token} {source : List Char}

-- ── Fields ───────────────────────────────────────────────────────────────────────

namespace Field

/-- The tokens of a type and the span of the type, or of the type of the values of a map. -/
inductive TypePhrase : List Token → FieldType → Span → Prop where
  | single {t : Token} {name : String} (h : t.kind = .ident name) :
      TypePhrase [t] (.single (.ofName name)) t.span
  | map {word opening key comma value closing : Token} {keyName name : String} {scalar : Scalar}
      (hword : word.kind = .ident "map") (hopening : opening.kind = .symbol '<')
      (hkey : key.kind = .ident keyName) (hscalar : Scalar.ofKeyword? keyName = some scalar)
      (hcomma : comma.kind = .symbol ',') (h : value.kind = .ident name) (hclosing : closing.kind = .symbol '>') :
      TypePhrase [word, opening, key, comma, value, closing] (.map scalar (.ofName name)) value.span

/-- The tokens of a field: its label, its type, its name, `=`, its number, its options and `;`. -/
inductive Phrase (source : List Char) : List Token → Field → Prop where
  | intro {L T N S : List Token} {name equals semicolon : Token} {f : Field} {settingsSpan : Option Span}
      (label : L.map Token.kind = f.label.kinds) (type : TypePhrase T f.type f.typeSpan)
      (hname : name.kind = .ident f.name) (hequals : equals.kind = .symbol '=')
      (settings : Setting.ListPhrase source S f.settings settingsSpan)
      (hsemicolon : semicolon.kind = .symbol ';') :
      Phrase source (L ++ (T ++ name :: equals :: (N ++ (S ++ [semicolon])))) f

theorem kinds_of_ofName? {word : String} {label : Label} (h : Label.ofName? word = some label) :
    label.kinds = [.ident word] := by
  unfold Label.ofName? at h
  split at h
  · next hword => cases h; rw [hword]; rfl
  split at h
  · next hword => cases h; rw [hword]; rfl
  split at h
  · next hword => cases h; rw [hword]; rfl
  · cases h

/-- The tokens of a label and of the name behind it. -/
theorem parses_readHead (inOneof : Bool) :
    Parses anything (readHead inOneof) fun us x =>
      ∃ L, us = L ++ [x.2.2] ∧ L.map Token.kind = x.1.kinds ∧ x.2.2.kind = .ident x.2.1 := by
  refine (Parses.name _).bind ?_
  rintro _ ⟨first, t⟩ ⟨rfl, ht⟩
  have hbare : Parses anything (pure (Label.singular, first, t)) fun vs (x : Label × String × Token) =>
      ∃ L, [t] ++ vs = L ++ [x.2.2] ∧ L.map Token.kind = x.1.kinds ∧ x.2.2.kind = .ident x.2.1 :=
    .pure ⟨[], rfl, rfl, ht⟩
  dsimp only
  split
  · exact hbare
  · next label hlabel =>
      refine .symbolAhead _ _ fun isType => ?_
      split
      · exact hbare
      · refine (Parses.name _).bind ?_
        rintro _ ⟨type, u⟩ ⟨rfl, hu⟩
        refine .pure ⟨[t], rfl, ?_, hu⟩
        rw [kinds_of_ofName? hlabel]
        exact congrArg (fun k => [k]) ht

theorem parses_readMap {word : Token} (hword : word.kind = .ident "map") :
    Parses anything readMap fun us x => TypePhrase (word :: us) x.1 x.2 := by
  refine (Parses.symbol _).bind ?_
  rintro _ opening ⟨rfl, hopening⟩
  refine (Parses.name _).bind ?_
  rintro _ ⟨keyName, key⟩ ⟨rfl, hkey⟩
  dsimp only
  split
  · exact .fail _
  · next scalar hscalar =>
      refine (Parses.symbol _).bind ?_
      rintro _ comma ⟨rfl, hcomma⟩
      refine (Parses.name _).bind ?_
      rintro _ ⟨name, value⟩ ⟨rfl, hvalue⟩
      refine (Parses.symbol _).bind ?_
      rintro _ closing ⟨rfl, hclosing⟩
      exact .pure (.map hword hopening hkey hscalar hcomma hvalue hclosing)

/-- A type with its first token, which has been read. -/
theorem parses_readType {type : String} {token : Token} (h : token.kind = .ident type) :
    Parses anything (readType type token) fun us x => TypePhrase (token :: us) x.1 x.2 := by
  unfold readType
  split
  · exact .fail _
  · refine .symbolAhead _ _ fun isMap => ?_
    split
    · next hmap => exact parses_readMap (hmap.1 ▸ h)
    · exact .pure (.single h)

theorem parses_readNumber : Parses anything Field.readNumber fun _ _ => True := by
  refine (parses_readInteger _).bind ?_
  rintro _ ⟨n, token⟩ -
  dsimp only
  split
  · exact .pure trivial
  · exact .fail _

/-- **A field is what its tokens stand for.** -/
theorem parses_read (oneof : Option String) : Parses anything (Field.read source oneof) (Phrase source) := by
  refine (parses_readHead _).bind ?_
  rintro _ ⟨label, type, t⟩ ⟨L, rfl, hlabel, ht⟩
  refine (parses_readType ht).bind ?_
  rintro us ⟨type, typeSpan⟩ htype
  refine (Parses.name _).bind ?_
  rintro _ ⟨name, u⟩ ⟨rfl, hname⟩
  refine (Parses.symbol _).bind ?_
  rintro _ equals ⟨rfl, hequals⟩
  refine parses_readNumber.bind fun N number _ => ?_
  refine Setting.parses_readBracketed.bind ?_
  rintro S ⟨settings, settingsSpan⟩ hsettings
  refine (Parses.symbol _).bind ?_
  rintro _ semicolon ⟨rfl, hsemicolon⟩
  refine .pure ?_
  rw [List.append_assoc]
  exact .intro (T := t :: us) hlabel htype hname hequals hsettings hsemicolon

end Field

-- ── Enums ────────────────────────────────────────────────────────────────────────

/-- The tokens of a value of an enum: its name, `=`, a sign or none, its number, its options and `;`. Its span is
    that of the name. -/
inductive EnumValue.Phrase (source : List Char) : List Token → EnumValue → Prop where
  | intro {N M S : List Token} {name equals semicolon : Token} {v : EnumValue}
      (hname : name.kind = .ident v.name) (span : v.span = name.span) (hequals : equals.kind = .symbol '=')
      (settings : Setting.ListPhrase source S v.settings v.settingsSpan)
      (hsemicolon : semicolon.kind = .symbol ';') :
      Phrase source (name :: equals :: (N ++ (M ++ (S ++ [semicolon])))) v

/-- **A value of an enum is what its tokens stand for.** -/
theorem EnumValue.parses_read : Parses anything (EnumValue.read source) (EnumValue.Phrase source) := by
  refine (Parses.name _).bind ?_
  rintro _ ⟨name, t⟩ ⟨rfl, hname⟩
  refine .takeHeld fun leading => ?_
  refine (Parses.symbol _).bind ?_
  rintro _ equals ⟨rfl, hequals⟩
  refine (Parses.acceptSymbol _).bind fun N negative _ => ?_
  refine (parses_readInteger _).bind fun M number _ => ?_
  refine Setting.parses_readBracketed.bind fun S settings hsettings => ?_
  refine (Parses.symbol _).bind ?_
  rintro _ semicolon ⟨rfl, hsemicolon⟩
  exact .trailing _ fun _ => .pure (.intro hname rfl hequals hsettings hsemicolon)

namespace EnumDef

/-- The tokens of the statements of an enum: options, values and others, in any order. -/
inductive BodyPhrase (source : List Char) : List Token → Body → Prop where
  | nil : BodyPhrase source [] {}
  | skip {us : List Token} {body : Body} (h : BodyPhrase source us body) (vs : List Token) :
      BodyPhrase source (us ++ vs) body
  | setting {us vs : List Token} {body : Body} {s : Setting} (h : BodyPhrase source us body)
      (hs : Setting.StatementPhrase source vs s) :
      BodyPhrase source (us ++ vs) { body with settings := body.settings ++ [s] }
  | value {us vs : List Token} {body : Body} {v : EnumValue} (h : BodyPhrase source us body)
      (hv : EnumValue.Phrase source vs v) :
      BodyPhrase source (us ++ vs) { body with values := body.values ++ [v] }

/-- The tokens of an enum: `enum`, its name, and its statements in braces. -/
inductive Phrase (source : List Char) : List Token → EnumDef → Prop where
  | intro {B : List Token} {keyword name opening closing : Token} {e : EnumDef}
      (hkeyword : keyword.kind = .ident "enum") (hname : name.kind = .ident e.name)
      (hopening : opening.kind = .symbol '\x7b') (body : BodyPhrase source B ⟨e.settings, e.values⟩)
      (hclosing : closing.kind = .symbol '\x7d')
      (spans : e.keyword = keyword.span ∧ e.opening = opening.span ∧ e.closing = closing.span) :
      Phrase source (keyword :: name :: opening :: (B ++ [closing])) e

/-- The statements of an enum and its closing brace. -/
def EndedPhrase (source : List Char) (us : List Token) (x : Body × Token) : Prop :=
  ∃ B, us = B ++ [x.2] ∧ BodyPhrase source B x.1 ∧ x.2.kind = .symbol '\x7d'

theorem parses_bodyStep {body : Body} (h : BodyPhrase source us body) :
    Parses anything (bodyStep source body) fun vs =>
      Sum.elim (BodyPhrase source (us ++ vs)) (EndedPhrase source (us ++ vs)) := by
  refine .peek? fun kind => ?_
  split
  · exact .refuse _
  · split
    · next hc =>
        refine (Parses.next_of_begins _).bind ?_
        rintro _ closing ⟨rfl, hclosing⟩
        exact .pure ⟨us, rfl, h, hc ▸ hclosing⟩
    · split
      · exact (Parses.next _).weaken.map fun vs _ _ => h.skip vs
      · exact .refuse _
  · next word =>
      refine .symbolAhead _ _ fun isValue => ?_
      split
      · next hword =>
          exact (hword.1 ▸ Setting.parses_readStatement).map fun vs s hs => h.setting hs
      · split
        · exact (Parses.next _).weaken.bind fun vs _ _ => (parses_skipPast _).map fun ws _ _ => h.skip (vs ++ ws)
        · exact EnumValue.parses_read.weaken.map fun vs v hv => h.value hv
  · exact .refuse _

/-- **An enum is what its tokens stand for**, its keyword among them. -/
theorem parses_read {keyword : Token} (hkeyword : keyword.kind = .ident "enum") :
    Parses anything (EnumDef.read source keyword) fun us => Phrase source (keyword :: us) := by
  refine (Parses.name _).bind ?_
  rintro _ ⟨name, t⟩ ⟨rfl, hname⟩
  refine (Parses.symbol _).bind ?_
  rintro _ opening ⟨rfl, hopening⟩
  refine .dropHeld fun _ => ?_
  have hbody : Parses anything (iterate (bodyStep source) (.of_takes (takes_bodyStep source)) {})
      (EndedPhrase source) := .iterate [] (I := BodyPhrase source) (fun _ _ h => parses_bodyStep h) .nil
  refine hbody.bind ?_
  rintro _ ⟨body, closing⟩ ⟨B, rfl, hbody, hclosing⟩
  refine .takeHeld fun dangling => .pure ?_
  rw [List.append_nil]
  exact .intro hkeyword hname hopening hbody hclosing ⟨rfl, rfl, rfl⟩

end EnumDef

-- ── Among other tokens ───────────────────────────────────────────────────────────

variable {α : Type} {P : List Token → α → Prop} {a : α}

/-- Tokens next to each other, among others, stand for something. -/
def Occurs (P : List Token → α → Prop) (ts : List Token) (a : α) : Prop := ∃ us, us <:+: ts ∧ P us a

theorem Occurs.mono (h : Occurs P us a) (hts : us <:+: ts) : Occurs P ts a := by
  obtain ⟨vs, hvs, ha⟩ := h
  exact ⟨vs, hvs.trans hts, ha⟩

theorem Occurs.of_phrase (h : P us a) : Occurs P us a := ⟨us, List.infix_refl us, h⟩

/-- Tokens among others stand for each of a list. -/
def OccurEach (P : List Token → α → Prop) (ts : List Token) (as : List α) : Prop := ∀ a ∈ as, Occurs P ts a

namespace OccurEach

variable {as bs : List α}

theorem mono (h : OccurEach P us as) (hts : us <:+: ts) : OccurEach P ts as :=
  fun a ha => (h a ha).mono hts

theorem nil : OccurEach P ts [] := List.forall_mem_nil _

theorem append (h : OccurEach P ts as) (h' : OccurEach P ts bs) : OccurEach P ts (as ++ bs) :=
  List.forall_mem_append.mpr ⟨h, h'⟩

theorem concat (h : OccurEach P ts as) (ha : Occurs P ts a) : OccurEach P ts (as ++ [a]) :=
  h.append (List.forall_mem_singleton.mpr ha)

end OccurEach

-- ── Messages ─────────────────────────────────────────────────────────────────────

namespace Message

/-- All declarations of a message stand among tokens, at every depth. -/
inductive WrittenIn (source : List Char) (ts : List Token) : Message → Prop where
  | intro {m : Message} (settings : OccurEach (Setting.StatementPhrase source) ts m.settings)
      (enums : OccurEach (EnumDef.Phrase source) ts m.enums)
      (fields : OccurEach (Field.Phrase source) ts m.fields)
      (messages : ∀ i ∈ m.messages, WrittenIn source ts i) : WrittenIn source ts m

/-- What an element adds to a message stands among tokens. -/
def Element.WrittenIn (source : List Char) (ts : List Token) : Element → Prop
  | .enum e     => Occurs (EnumDef.Phrase source) ts e
  | .setting s  => Occurs (Setting.StatementPhrase source) ts s
  | .oneof _ fs => OccurEach (Field.Phrase source) ts fs
  | .field f    => Occurs (Field.Phrase source) ts f
  | .close | .skip | .nested _ _ => True

variable {m : Message}

namespace WrittenIn

theorem mono (h : m.WrittenIn source us) (hts : us <:+: ts) : m.WrittenIn source ts := by
  induction h with
  | @intro m settings enums fields messages ih =>
      exact ⟨settings.mono hts, enums.mono hts, fields.mono hts, ih⟩

theorem empty (name : String) (position : Position) : ({ name, position } : Message).WrittenIn source ts :=
  ⟨.nil, .nil, .nil, List.forall_mem_nil _⟩

/-- One more element. -/
theorem push (h : m.WrittenIn source ts) {x : Element} (hx : x.WrittenIn source ts) :
    (m.push x).WrittenIn source ts := by
  obtain ⟨settings, enums, fields, messages⟩ := h
  cases x with
  | enum e => exact ⟨settings, enums.concat hx, fields, messages⟩
  | setting s => exact ⟨settings.concat hx, enums, fields, messages⟩
  | oneof name fs => exact ⟨settings, enums, fields.append hx, messages⟩
  | field f => exact ⟨settings, enums, fields.concat hx, messages⟩
  | _ => exact ⟨settings, enums, fields, messages⟩

/-- One more nested message. -/
theorem pushMessage (h : m.WrittenIn source ts) {inner : Message} (hinner : inner.WrittenIn source ts) :
    (m.pushMessage inner).WrittenIn source ts := by
  obtain ⟨settings, enums, fields, messages⟩ := h
  exact ⟨settings, enums, fields, List.forall_mem_append.mpr ⟨messages, List.forall_mem_singleton.mpr hinner⟩⟩

/-- The enums and fields of a message stand among the tokens, at every depth. -/
theorem declares (h : m.WrittenIn source ts) :
    m.Declares (fun _ => True) (Occurs (EnumDef.Phrase source) ts) (Occurs (Field.Phrase source) ts) := by
  induction h with
  | intro settings enums fields messages ih => exact ⟨trivial, enums, fields, ih⟩

/-- So do the options of the messages in it. -/
theorem of_messagesIn (h : m.WrittenIn source ts) (scope : String) :
    ∀ x ∈ messagesIn scope m, OccurEach (Setting.StatementPhrase source) ts x.2.settings := by
  induction h generalizing scope with
  | @intro m settings enums fields messages ih =>
      intro x hx
      rw [messagesIn_eq] at hx
      rcases List.mem_cons.mp hx with rfl | hx
      · exact settings
      · obtain ⟨i, hi, hx⟩ := List.mem_flatMap.mp hx
        exact ih i hi _ x hx

end WrittenIn

theorem Element.WrittenIn.mono {x : Element} (h : x.WrittenIn source us) (hts : us <:+: ts) :
    x.WrittenIn source ts := by
  cases x with
  | enum e => exact Occurs.mono h hts
  | setting s => exact Occurs.mono h hts
  | oneof name fs => exact OccurEach.mono h hts
  | field f => exact Occurs.mono h hts
  | _ => trivial

/-- A statement of a choice adds a field or none. -/
theorem parses_oneofStep (name : String) {fs : List Field} (h : OccurEach (Field.Phrase source) us fs) :
    Parses anything (oneofStep source name fs) fun vs =>
      Sum.elim (OccurEach (Field.Phrase source) (us ++ vs)) (OccurEach (Field.Phrase source) (us ++ vs)) := by
  have hmore : ∀ vs, OccurEach (Field.Phrase source) (us ++ vs) fs :=
    fun vs => h.mono (List.prefix_append us vs).isInfix
  refine .peek? fun kind => ?_
  split
  · split
    · exact (Parses.next _).weaken.bind fun _ _ _ => .pure (hmore _)
    · split
      · exact (Parses.next _).weaken.bind fun _ _ _ => .pure (hmore _)
      · exact .refuse _
  · split
    · next hword => exact (hword ▸ Setting.parses_readStatement).bind fun _ _ _ => .pure (hmore _)
    · exact (Field.parses_read _).weaken.map fun vs f hf =>
        (hmore vs).concat ((Occurs.of_phrase hf).mono (List.suffix_append us vs).isInfix)
  · exact .refuse _

theorem parses_readOneof : Parses anything (readOneof source) (Element.WrittenIn source) := by
  rw [readOneof_eq]
  have hhead : Parses anything oneofHead fun _ _ => True :=
    (Parses.name _).bind fun _ _ _ => (Parses.symbol _).map fun _ _ _ => trivial
  refine hhead.bind fun us name _ => ?_
  have hfields : Parses anything (iterate (oneofStep source name) (.of_takes (takes_oneofStep source name)) [])
      (OccurEach (Field.Phrase source)) :=
    .iterate [] (I := OccurEach (Field.Phrase source)) (fun _ _ h => parses_oneofStep name h) .nil
  exact hfields.map fun vs fs hfs => OccurEach.mono hfs (List.suffix_append us vs).isInfix

theorem parses_readHead : Parses anything readHead fun _ _ => True :=
  (Parses.name _).bind fun _ _ _ => (Parses.symbol _).map fun _ _ _ => trivial

/-- The element that a word starts. -/
theorem parses_readNamed (word : String) :
    Parses (Begins (.ident word)) (readNamed source word) (Element.WrittenIn source) := by
  unfold readNamed
  split
  · exact (Parses.next _).weaken.bind fun _ _ _ => parses_readHead.map fun _ _ _ => trivial
  split
  · next hword =>
      refine (Parses.next_of_begins _).bind ?_
      rintro _ keyword ⟨rfl, hkeyword⟩
      exact (EnumDef.parses_read (hword ▸ hkeyword)).map fun vs e he => Occurs.of_phrase he
  split
  · next hword => exact (hword ▸ Setting.parses_readStatement).map fun vs s hs => Occurs.of_phrase hs
  split
  · exact (Parses.next _).weaken.bind fun us _ _ => parses_readOneof.mono fun vs x hx =>
      hx.mono (List.suffix_append us vs).isInfix
  split
  · exact (Parses.next _).weaken.bind fun _ _ _ => (parses_skipPast _).map fun _ _ _ => trivial
  split
  · exact (Parses.next _).weaken.bind fun _ _ _ => parses_skipBlock.map fun _ _ _ => trivial
  · exact (Field.parses_read _).weaken.map fun vs f hf => Occurs.of_phrase hf

theorem parses_readElement : Parses anything (readElement source) (Element.WrittenIn source) := by
  refine .dropHeld fun _ => .peek? fun kind => ?_
  split
  · exact .refuse _
  · split
    · exact (Parses.next _).weaken.map fun _ _ _ => trivial
    · split
      · exact (Parses.next _).weaken.map fun _ _ _ => trivial
      · exact .refuse _
  · exact parses_readNamed _
  · exact .refuse _

/-- **The elements up to a closing brace stand among the tokens that are taken for them.** -/
theorem parses_readBody (h : m.WrittenIn source us) :
    Parses anything (readBody source m) fun vs m' => m'.WrittenIn source (us ++ vs) := by
  intro s m' s' hs hr
  clear hs
  rw [readBody_eq_ok_iff] at hr
  induction hr generalizing us with
  | close element =>
      obtain ⟨vs, htokens, -⟩ := parses_readElement trivial element
      exact ⟨vs, htokens, h.mono (List.prefix_append us vs).isInfix⟩
  | push element _ _ ih =>
      obtain ⟨vs, htokens, hx⟩ := parses_readElement trivial element
      have hpush := (h.mono (List.prefix_append us vs).isInfix).push (hx.mono (List.suffix_append us vs).isInfix)
      obtain ⟨ws, htokens₁, hm'⟩ := ih hpush
      rw [List.append_assoc] at hm'
      exact ⟨vs ++ ws, by rw [htokens, htokens₁, List.append_assoc], hm'⟩
  | @nested m inner m' s s₁ s₂ s' name position element _ _ ihInside ihRest =>
      obtain ⟨vs, htokens, -⟩ := parses_readElement trivial element
      have hempty : ({ name, position } : Message).WrittenIn source [] := .empty name position
      obtain ⟨ws, htokens₁, hinner⟩ : ∃ ws, s₁.tokens = ws ++ s₂.tokens ∧ inner.WrittenIn source ws :=
        ihInside hempty
      have hnested := (h.mono (List.prefix_append us (vs ++ ws)).isInfix).pushMessage
        (hinner.mono (((List.suffix_append vs ws).trans (List.suffix_append us _)).isInfix))
      obtain ⟨xs, htokens₂, hm'⟩ := ihRest hnested
      rw [List.append_assoc] at hm'
      exact ⟨vs ++ ws ++ xs, by rw [htokens, htokens₁, htokens₂]; simp only [List.append_assoc], hm'⟩

theorem parses_read : Parses anything (read source) (WrittenIn source) := by
  refine parses_readHead.bind fun us x _ => ?_
  exact parses_readBody (.empty x.1 x.2)

end Message

-- ── Schemas ──────────────────────────────────────────────────────────────────────

namespace Schema

/-- All declarations of a schema stand among tokens. -/
structure WrittenIn (source : List Char) (ts : List Token) (s : Schema) : Prop where
  settings : OccurEach (Setting.StatementPhrase source) ts s.settings
  enums    : OccurEach (EnumDef.Phrase source) ts s.enums
  messages : ∀ m ∈ s.messages, m.WrittenIn source ts

/-- What a statement adds to a schema stands among tokens. -/
def Item.WrittenIn (source : List Char) (ts : List Token) : Item → Prop
  | .setting s => Occurs (Setting.StatementPhrase source) ts s
  | .enum e    => Occurs (EnumDef.Phrase source) ts e
  | .message m => m.WrittenIn source ts
  | .skip | .edition _ | .package _ | .path _ => True

variable {s : Schema}

namespace WrittenIn

theorem mono (h : s.WrittenIn source us) (hts : us <:+: ts) : s.WrittenIn source ts :=
  ⟨h.settings.mono hts, h.enums.mono hts, fun m hm => (h.messages m hm).mono hts⟩

/-- One more statement. -/
theorem push (h : s.WrittenIn source ts) {x : Item} (hx : x.WrittenIn source ts) :
    (s.push x).WrittenIn source ts := by
  obtain ⟨settings, enums, messages⟩ := h
  cases x with
  | setting s => exact ⟨settings.concat hx, enums, messages⟩
  | enum e => exact ⟨settings, enums.concat hx, messages⟩
  | message m => exact ⟨settings, enums, List.forall_mem_append.mpr ⟨messages, List.forall_mem_singleton.mpr hx⟩⟩
  | _ => exact ⟨settings, enums, messages⟩

/-- The enums and fields of a schema stand among the tokens, at every depth. -/
theorem declares (h : s.WrittenIn source ts) :
    s.Declares (fun _ => True) (Occurs (EnumDef.Phrase source) ts) (Occurs (Field.Phrase source) ts) :=
  ⟨fun _ _ => trivial, h.enums, fun m hm => (h.messages m hm).declares⟩

/-- So do the options of its messages. -/
theorem of_messagesIn (h : s.WrittenIn source ts) :
    ∀ x ∈ s.messagesIn, OccurEach (Setting.StatementPhrase source) ts x.2.settings := by
  intro x hx
  rw [messagesIn, Message.allMessagesIn_eq] at hx
  obtain ⟨m, hm, hx⟩ := List.mem_flatMap.mp hx
  exact (h.messages m hm).of_messagesIn _ x hx

end WrittenIn

theorem Item.WrittenIn.mono {x : Item} (h : x.WrittenIn source us) (hts : us <:+: ts) : x.WrittenIn source ts := by
  cases x with
  | setting s => exact Occurs.mono h hts
  | enum e => exact Occurs.mono h hts
  | message m => exact Message.WrittenIn.mono h hts
  | _ => trivial

theorem parses_readEdition : Parses anything readEdition fun _ _ => True :=
  (Parses.symbol _).bind fun _ _ _ => (parses_readString _).bind fun _ _ _ =>
    (Parses.symbol _).map fun _ _ _ => trivial

theorem parses_readPackage : Parses anything readPackage fun _ _ => True :=
  (Parses.name _).bind fun _ _ _ => (Parses.symbol _).map fun _ _ _ => trivial

theorem parses_readImport : Parses anything readImport fun _ _ => True :=
  (Parses.accept _).bind fun _ _ _ => (parses_readString _).bind fun _ _ _ =>
    (Parses.symbol _).map fun _ _ _ => trivial

/-- The statement that a word starts. -/
theorem parses_readItemNamed (word : String) :
    Parses (Begins (.ident word)) (readItemNamed source word) (Item.WrittenIn source) := by
  unfold readItemNamed
  split
  · exact (Parses.next _).weaken.bind fun _ _ _ => parses_readEdition.map fun _ _ _ => trivial
  split
  · exact (Parses.next _).weaken.bind fun _ _ _ => parses_readPackage.map fun _ _ _ => trivial
  split
  · exact (Parses.next _).weaken.bind fun _ _ _ => parses_readImport.map fun _ _ _ => trivial
  split
  · next hword => exact (hword ▸ Setting.parses_readStatement).map fun vs s hs => Occurs.of_phrase hs
  split
  · exact (Parses.next _).weaken.bind fun us _ _ => Message.parses_read.map fun vs m hm =>
      Message.WrittenIn.mono hm (List.suffix_append us vs).isInfix
  split
  · next hword =>
      refine (Parses.next_of_begins _).bind ?_
      rintro _ keyword ⟨rfl, hkeyword⟩
      exact (EnumDef.parses_read (hword ▸ hkeyword)).map fun vs e he => Occurs.of_phrase he
  split
  · exact (Parses.next _).weaken.bind fun _ _ _ => parses_skipBlock.map fun _ _ _ => trivial
  · exact .refuse _

theorem parses_readItem : Parses anything (readItem source) (Item.WrittenIn source) := by
  refine .peek? fun kind => ?_
  split
  · split
    · exact (Parses.next _).weaken.map fun _ _ _ => trivial
    · exact .refuse _
  · exact parses_readItemNamed _
  · exact .refuse _

/-- A statement, or the end of the input. -/
theorem parses_step (h : s.WrittenIn source us) :
    Parses anything (step source s) fun vs =>
      Sum.elim (WrittenIn source (us ++ vs)) (WrittenIn source (us ++ vs)) := by
  intro t x t' _ hr
  rcases step_inv hr with ⟨rfl, -, rfl⟩ | ⟨item, rfl, h1⟩
  · refine ⟨[], rfl, show s.WrittenIn source (us ++ []) from ?_⟩
    rwa [List.append_nil]
  · obtain ⟨vs, htokens, hitem⟩ := parses_readItem trivial h1
    refine ⟨vs, htokens, (h.mono (List.prefix_append us vs).isInfix).push ?_⟩
    exact hitem.mono (List.suffix_append us vs).isInfix

/-- **A schema that is parsed is written in the tokens of its source.** -/
theorem writtenIn_parse {source : String} (h : parse source = .ok s) :
    ∃ ts, tokenize source = .ok ts ∧ s.WrittenIn source.toList (significant ts) := by
  rw [parse] at h
  split at h
  · cases h
  · next ts htokens =>
      refine ⟨ts, htokens, ?_⟩
      rw [ofTokens] at h
      cases hrun : iterate (step source.toList) (proceeds_step source.toList) {} (Stream.ofTokens ts) with
      | error e => rw [hrun] at h; cases h
      | ok x =>
          rw [hrun] at h
          cases h
          have hempty : ({} : Schema).WrittenIn source.toList [] := ⟨.nil, .nil, List.forall_mem_nil _⟩
          have hread : Parses anything (iterate (step source.toList) (proceeds_step source.toList) {})
              (WrittenIn source.toList) :=
            .iterate [] (I := WrittenIn source.toList) (fun _ _ h => parses_step h) hempty
          obtain ⟨us, hus, hs⟩ := hread trivial hrun
          rw [Stream.tokens_ofTokens] at hus
          exact hs.mono (hus ▸ (List.prefix_append us _).isInfix)

end Schema

end FlagSchema
