import FlagSchema.Proofs.Indices

/-!
# What the readers of a schema are built of

Every reader, from that of a number to that of a schema, is built of operations on a stream, and so it moves an index
into the tokens forwards within their number. What is skipped, a value and an option in brackets end with the token in
front of the index: there is one, and it is no comment.

* **`Schema.built_step`**: the reader of a schema, in the end, is built of operations on a stream.
* **`Reader.EndsWith`**: what a reader gives is related to the last token that it takes.
* **`Constant.endsWith_read`**, **`Setting.endsWith_readEntry`**: where values and options end.
-/

namespace FlagSchema

open Token Reader

variable {source : List Char}

-- ── Constants and options ────────────────────────────────────────────────────────

theorem built_skipStep (c : Char) (u : Unit) : Built (skipStep c u) := .bind (.next _) fun _ => .pure _

theorem built_skipPast (c : Char) : Built (skipPast c) := .iterate (built_skipStep c) ()

theorem built_braceStep (depth : Nat) : Built (braceStep depth) := .bind (.next _) fun _ => .pure _

theorem built_skipBraces : Built skipBraces := .iterate built_braceStep 0

theorem built_skipBlock : Built skipBlock :=
  .bind (built_skipPast _) fun _ => .bind built_skipBraces fun _ => .pure _

theorem built_readInteger (what : Expectation) : Built (readInteger what) := by
  refine .bind (.next _) fun t => ?_
  split
  · split
    · exact .pure _
    · exact .fail _
  · exact .fail _

theorem built_readNumber : Built readNumber := by
  refine .bind (.next _) fun t => ?_
  dsimp only
  split
  · exact .pure _
  · exact .fail _

theorem built_stringStep (read : String × Token) : Built (stringStep read) := .bind (.accept _) fun _ => .pure _

theorem built_readString (what : Expectation) : Built (readString what) :=
  .bind (.require ..) fun first => .iterate built_stringStep first

theorem Constant.built_read (source : List Char) : Built (Constant.read source) := by
  refine .bind .peek? fun kind => ?_
  split
  · exact .bind (built_readString _) fun _ => .pure _
  · split
    · exact .bind (.next _) fun _ => .bind built_skipBraces fun _ => .pure _
    · split
      · exact .bind (.next _) fun _ => .bind built_readNumber fun _ => .pure _
      · split
        · exact .bind (.next _) fun _ => built_readNumber
        · exact .refuse _
  · exact .bind (.next _) fun _ => .pure _
  · exact built_readNumber
  · exact built_readNumber
  · exact .refuse _

theorem built_subfieldStep (name : String) : Built (subfieldStep name) := .bind (.accept _) fun _ => .pure _

theorem built_readBareName : Built readBareName := by
  refine .bind (.acceptSymbol _) fun found => ?_
  split
  · exact .bind (.name _) fun _ => .bind (.symbol _) fun _ => .pure _
  · exact .bind (.name _) fun _ => .pure _

theorem built_readOptionName : Built readOptionName :=
  .bind built_readBareName fun bare => .iterate built_subfieldStep bare

namespace Setting

theorem built_readStatement (source : List Char) : Built (readStatement source) :=
  .bind (.next _) fun _ => .bind built_readOptionName fun _ => .bind (.symbol _) fun _ =>
    .bind (Constant.built_read source) fun _ => .bind (.symbol _) fun _ => .bind (.trailing _) fun _ => .pure _

theorem built_nextStart : Built nextStart := .looks fun s => ⟨_, s.held, rfl⟩

theorem built_readEntry (source : List Char) : Built (readEntry source) :=
  .bind built_nextStart fun _ => .bind built_readOptionName fun _ => .bind (.symbol _) fun _ =>
    .bind (Constant.built_read source) fun _ => .pure _

theorem built_entryStep (source : List Char) (read : List Setting) : Built (entryStep source read) := by
  refine .bind (built_readEntry source) fun _ => .bind (.acceptSymbol _) fun found => ?_
  split
  · exact .pure _
  · exact .pure _

theorem built_readBracketed (source : List Char) : Built (readBracketed source) := by
  refine .bind (.accept _) fun found => ?_
  split
  · exact .pure _
  · exact .bind (.iterate (built_entryStep source) _) fun _ => .bind (.symbol _) fun _ => .pure _

end Setting

-- ── Enums and fields ─────────────────────────────────────────────────────────────

theorem EnumValue.built_read (source : List Char) : Built (EnumValue.read source) :=
  .bind (.name _) fun _ => .bind .takeHeld fun _ => .bind (.symbol _) fun _ => .bind (.acceptSymbol _) fun _ =>
    .bind (built_readInteger _) fun _ => .bind (Setting.built_readBracketed source) fun _ =>
      .bind (.symbol _) fun _ => .bind (.trailing _) fun _ => .pure _

namespace EnumDef

theorem built_bodyStep (source : List Char) (body : Body) : Built (bodyStep source body) := by
  refine .bind .peek? fun kind => ?_
  split
  · exact .refuse _
  · split
    · exact .bind (.next _) fun _ => .pure _
    · split
      · exact .bind (.next _) fun _ => .pure _
      · exact .refuse _
  · refine .bind (.symbolAhead ..) fun isValue => ?_
    split
    · exact .bind (Setting.built_readStatement source) fun _ => .pure _
    · split
      · exact .bind (.next _) fun _ => .bind (built_skipPast _) fun _ => .pure _
      · exact .bind (EnumValue.built_read source) fun _ => .pure _
  · exact .refuse _

theorem built_read (source : List Char) (keyword : Token) : Built (read source keyword) :=
  .bind (.name _) fun _ => .bind (.symbol _) fun _ => .bind .dropHeld fun _ =>
    .bind (.iterate (built_bodyStep source) _) fun _ => .bind .takeHeld fun _ => .pure _

end EnumDef

namespace Field

theorem built_readHead (inOneof : Bool) : Built (readHead inOneof) := by
  refine .bind (.name _) fun ⟨first, token⟩ => ?_
  dsimp only
  split
  · exact .pure _
  · refine .bind (.symbolAhead ..) fun isType => ?_
    split
    · exact .pure _
    · exact .bind (.name _) fun _ => .pure _

theorem built_readMap : Built readMap := by
  refine .bind (.symbol _) fun _ => .bind (.name _) fun ⟨key, token⟩ => ?_
  dsimp only
  split
  · exact .fail _
  · exact .bind (.symbol _) fun _ => .bind (.name _) fun _ => .bind (.symbol _) fun _ => .pure _

theorem built_readType (type : String) (token : Token) : Built (readType type token) := by
  unfold readType
  split
  · exact .fail _
  · refine .bind (.symbolAhead ..) fun isMap => ?_
    split
    · exact built_readMap
    · exact .pure _

theorem built_readNumber : Built Field.readNumber := by
  refine .bind (built_readInteger _) fun ⟨n, token⟩ => ?_
  dsimp only
  split
  · exact .pure _
  · exact .fail _

theorem built_read (source : List Char) (oneof : Option String) : Built (read source oneof) :=
  .bind (built_readHead _) fun _ => .bind (built_readType ..) fun _ => .bind (.name _) fun _ =>
    .bind (.symbol _) fun _ => .bind built_readNumber fun _ => .bind (Setting.built_readBracketed source) fun _ =>
      .bind (.symbol _) fun _ => .pure _

end Field

-- ── Messages and schemas ─────────────────────────────────────────────────────────

namespace Message

theorem built_oneofStep (source : List Char) (name : String) (fields : List Field) :
    Built (oneofStep source name fields) := by
  refine .bind .peek? fun kind => ?_
  split
  · split
    · exact .bind (.next _) fun _ => .pure _
    · split
      · exact .bind (.next _) fun _ => .pure _
      · exact .refuse _
  · split
    · exact .bind (Setting.built_readStatement source) fun _ => .pure _
    · exact .bind (Field.built_read source _) fun _ => .pure _
  · exact .refuse _

theorem built_readOneof (source : List Char) : Built (readOneof source) :=
  .bind (.name _) fun x => .bind (.symbol _) fun _ => .bind (.iterate (built_oneofStep source x.1) _) fun _ => .pure _

theorem built_readHead : Built readHead := .bind (.name _) fun _ => .bind (.symbol _) fun _ => .pure _

theorem built_readNamed (source : List Char) (word : String) : Built (readNamed source word) := by
  unfold readNamed
  split
  · exact .bind (.next _) fun _ => .bind built_readHead fun _ => .pure _
  split
  · exact .bind (.next _) fun keyword => .bind (EnumDef.built_read source keyword) fun _ => .pure _
  split
  · exact .bind (Setting.built_readStatement source) fun _ => .pure _
  split
  · exact .bind (.next _) fun _ => built_readOneof source
  split
  · exact .bind (.next _) fun _ => .bind (built_skipPast _) fun _ => .pure _
  split
  · exact .bind (.next _) fun _ => .bind built_skipBlock fun _ => .pure _
  · exact .bind (Field.built_read source _) fun _ => .pure _

theorem built_readElement (source : List Char) : Built (readElement source) := by
  refine .bind .dropHeld fun _ => .bind .peek? fun kind => ?_
  split
  · exact .refuse _
  · split
    · exact .bind (.next _) fun _ => .pure _
    · split
      · exact .bind (.next _) fun _ => .pure _
      · exact .refuse _
  · exact built_readNamed source _
  · exact .refuse _

theorem built_read (source : List Char) : Built (read source) :=
  .bind built_readHead fun _ => .body (built_readElement source) _

end Message

namespace Schema

theorem built_readImport : Built readImport :=
  .bind (.accept _) fun _ => .bind (built_readString _) fun _ => .bind (.symbol _) fun _ => .pure _

theorem built_readEdition : Built readEdition :=
  .bind (.symbol _) fun _ => .bind (built_readString _) fun _ => .bind (.symbol _) fun _ => .pure _

theorem built_readPackage : Built readPackage := .bind (.name _) fun _ => .bind (.symbol _) fun _ => .pure _

theorem built_readItemNamed (source : List Char) (word : String) : Built (readItemNamed source word) := by
  unfold readItemNamed
  split
  · exact .bind (.next _) fun _ => .bind built_readEdition fun _ => .pure _
  split
  · exact .bind (.next _) fun _ => .bind built_readPackage fun _ => .pure _
  split
  · exact .bind (.next _) fun _ => .bind built_readImport fun _ => .pure _
  split
  · exact .bind (Setting.built_readStatement source) fun _ => .pure _
  split
  · exact .bind (.next _) fun _ => .bind (Message.built_read source) fun _ => .pure _
  split
  · exact .bind (.next _) fun keyword => .bind (EnumDef.built_read source keyword) fun _ => .pure _
  split
  · exact .bind (.next _) fun _ => .bind built_skipBlock fun _ => .pure _
  · exact .refuse _

theorem built_readItem (source : List Char) : Built (readItem source) := by
  refine .bind .peek? fun kind => ?_
  split
  · split
    · exact .bind (.next _) fun _ => .pure _
    · exact .refuse _
  · exact built_readItemNamed source _
  · exact .refuse _

theorem built_readStatement (source : List Char) (schema : Schema) : Built (readStatement source schema) := by
  rw [readStatement_eq]
  exact .bind (built_readItem source) fun _ => .pure _

/-- **The reader of a schema is built of operations on a stream**, and with it every reader in it. -/
theorem built_step (source : List Char) (schema : Schema) : Built (step source schema) := by
  refine .bind .dropHeld fun _ => .bind .atEnd fun ended => ?_
  split
  · exact .pure _
  · exact .bind (built_readStatement source schema) fun _ => .pure _

end Schema

-- ── The token in front of the index ──────────────────────────────────────────────

namespace Reader

variable {α β σ : Type} {r : Reader α} {rel : α → Token → Prop} {rel' : β → Token → Prop}

/-- Whenever a reader succeeds, it has taken a token, and what it gives is related to the last one. -/
def EndsWith (r : Reader α) (rel : α → Token → Prop) : Prop :=
  ∀ ⦃s a s'⦄, r s = .ok (a, s') → ∃ t, s.Behind t s' ∧ rel a t

/-- A reader takes nothing, and what it gives is related to a token. -/
def Tells (r : Reader α) (rel : α → Token → Prop) (t : Token) : Prop :=
  ∀ ⦃s a s'⦄, r s = .ok (a, s') → s' = s ∧ rel a t

theorem Tells.pure {a : α} {t : Token} (h : rel a t) : (Pure.pure a : Reader α).Tells rel t := by
  intro s b s' hr
  cases hr
  exact ⟨rfl, h⟩

theorem Tells.fail (e : SchemaError) (t : Token) : (Reader.fail e : Reader α).Tells rel t := fun _ _ _ h => nomatch h

/-- A token that is accepted is the last one taken. -/
theorem behind_of_accept {form : Kind → Option α} {s s' : Stream} {x : α × Token}
    (h : accept form s = .ok (some x, s')) : s.Behind x.2 s' := by
  obtain ⟨i, rest, a, hitems, -, rfl, rfl⟩ := accept_eq_some_iff.mp h
  exact Stream.behind_skipItem hitems

namespace EndsWith

theorem require (what : Expectation) (form : Kind → Option α) :
    (require what form).EndsWith fun x t => x.2 = t := by
  intro s x s' h
  obtain ⟨i, rest, a, hitems, -, rfl, rfl⟩ := require_eq_ok_iff.mp h
  exact ⟨_, Stream.behind_skipItem hitems, rfl⟩

theorem refuse (what : Expectation) : (Reader.refuse what : Reader α).EndsWith rel := by
  intro s a s' h
  exact absurd h (refuse_ne_ok what s _)

/-- What is taken in front does not matter. -/
theorem bind {f : α → Reader β} (hr : Keeps r) (hf : ∀ a, (f a).EndsWith rel') : (r >>= f).EndsWith rel' := by
  intro s b s' h
  obtain ⟨a, s₁, h1, h2⟩ := exists_of_bind h
  obtain ⟨t, hbehind, hrel⟩ := hf a h2
  exact ⟨t, hbehind.of_suffix (hr h1), hrel⟩

/-- A result that is told of the last token ends with it as well. -/
theorem tell {f : α → Reader β} (hr : r.EndsWith rel) (hf : ∀ a t, rel a t → (f a).Tells rel' t) :
    (r >>= f).EndsWith rel' := by
  intro s b s' h
  obtain ⟨a, s₁, h1, h2⟩ := exists_of_bind h
  obtain ⟨t, hbehind, hrel⟩ := hr h1
  obtain ⟨rfl, hrel'⟩ := hf a t hrel h2
  exact ⟨t, hbehind, hrel'⟩

theorem next (what : Expectation) : (next what).EndsWith (· = ·) :=
  (require what some).tell fun _ _ h => .pure h

/-- A step that is repeated ends with the token that the last of its runs takes. -/
theorem iterate {step : σ → Reader (σ ⊕ α)} {hstep : Proceeds step} (hkeeps : ∀ b, Keeps (step b))
    (h : ∀ b s a s', step b s = .ok (.inr a, s') → ∃ t, s.Behind t s' ∧ rel a t) (b : σ) :
    EndsWith (Reader.iterate step hstep b) rel := by
  intro s a s' hs
  refine iterate_invariant (I := fun _ s₁ => s₁.listing <:+ s.listing)
    (J := fun a s₁ => ∃ t, s.Behind t s₁ ∧ rel a t) (fun b s₁ b' s₂ h1 h2 => ?_) (fun b s₁ a s₂ h1 h2 => ?_)
    (List.suffix_refl _) hs
  · exact (hkeeps b h2).trans h1
  · obtain ⟨t, hbehind, hrel⟩ := h b _ _ _ h2
    exact ⟨t, hbehind.of_suffix h1, hrel⟩

end EndsWith

end Reader

/-- The offset at which something ends is that of the last token. -/
def StopsWith {α : Type} (x : α × Nat) (t : Token) : Prop := x.2 = t.span.stop

theorem endsWith_skipBraces : EndsWith skipBraces (· = ·) := by
  refine .iterate (fun depth => (built_braceStep depth).keeps) (fun depth s t s' h => ?_) 0
  obtain ⟨u, s₁, h1, h2⟩ := exists_of_bind h
  obtain ⟨v, hbehind, rfl⟩ := EndsWith.next _ h1
  obtain ⟨hout, rfl⟩ := Prod.mk.inj (Except.ok.inj h2)
  refine ⟨u, hbehind, ?_⟩
  split at hout
  · cases hout
  · split at hout
    · split at hout
      · exact (Sum.inr.inj hout).symm
      · cases hout
    · cases hout

theorem endsWith_readNumber : readNumber.EndsWith StopsWith := by
  refine (EndsWith.next _).tell fun t u h => ?_
  dsimp only
  split
  · exact .pure (h ▸ rfl)
  · exact .fail _ _

/-- A string ends with its last literal: each further one is the last token taken. -/
theorem endsWith_readString (what : Expectation) : (readString what).EndsWith fun x t => x.2 = t := by
  intro s x s' h
  obtain ⟨first, s₁, h1, h2⟩ := exists_of_bind h
  have hfirst : s.Behind first.2 s₁ := by
    obtain ⟨t, hbehind, rfl⟩ := EndsWith.require what stringForm h1
    exact hbehind
  refine ⟨x.2, ?_, rfl⟩
  refine iterate_invariant (I := fun read s₁ => s.Behind read.2 s₁) (J := fun read s₁ => s.Behind read.2 s₁)
    (fun read s₁ read' s₂ hread hstep => ?_) (fun read s₁ read' s₂ hread hstep => ?_) hfirst h2
  · obtain ⟨more, s₃, h3, h4⟩ := exists_of_bind hstep
    cases more with
    | none => cases h4
    | some y => cases h4; exact (behind_of_accept h3).of_suffix hread.suffix
  · obtain ⟨more, s₃, h3, h4⟩ := exists_of_bind hstep
    cases more with
    | none => cases h4; exact (accept_eq_none_iff.mp h3).2 ▸ hread
    | some y => cases h4

/-- **A value ends with the last token that its reader takes.** -/
theorem Constant.endsWith_read (source : List Char) : (Constant.read source).EndsWith StopsWith := by
  refine .bind Built.peek?.keeps fun kind => ?_
  split
  · exact (endsWith_readString _).tell fun x t h => .pure (h ▸ rfl)
  · split
    · exact .bind (Built.next _).keeps fun opening => endsWith_skipBraces.tell fun closing t h => .pure (h ▸ rfl)
    · split
      · exact .bind (Built.next _).keeps fun _ => endsWith_readNumber.tell fun x t h => .pure h
      · split
        · exact .bind (Built.next _).keeps fun _ => endsWith_readNumber
        · exact .refuse _
  · exact (EndsWith.next _).tell fun t u h => .pure (h ▸ rfl)
  · exact endsWith_readNumber
  · exact endsWith_readNumber
  · exact .refuse _

/-- **An option in brackets ends with the last token that its reader takes.** -/
theorem Setting.endsWith_readEntry (source : List Char) :
    (readEntry source).EndsWith fun x t => x.span.stop = t.span.stop :=
  .bind built_nextStart.keeps fun _ => .bind built_readOptionName.keeps fun _ =>
    .bind (Built.symbol _).keeps fun _ => (Constant.endsWith_read source).tell fun _ _ h => .pure h

end FlagSchema
