import FlagSchema.Proofs.Lowering

/-!
# Where declarations come from

Every enum and every field of a schema has been read from words of its source, and so has the name of every message.
What holds of all enums, fields and names that can be read so holds of those of the schema, however deep they are
nested.

* **`Reader.Yields`**: from a stream of words, a reader gives results of a sort.
* **`Message.Declares`**, **`Schema.Declares`**: all enums are of one sort, all fields of another, and all names of a
  third.
* **`Schema.declares_parse`**: so are those of a schema that has been read.
* **`EnumDef.yields_read`**, **`Field.yields_read`**: where an enum and a field are written, and that
  nothing has been lowered in them.
-/

namespace FlagSchema

open Token Reader

variable {α β σ : Type} {source : List Char}

-- ── Results of readers ───────────────────────────────────────────────────────────

/-- A name is one that the scanner finds. -/
def Token.IsScanned (name : String) : Prop := ∃ (w : Word) (rest : List Char), w.Leads rest ∧ w.kind = .ident name

/-- From a stream of words, a reader gives results of a sort and leaves a stream of words. -/
def Reader.Yields (source : List Char) (r : Reader α) (P : α → Prop) : Prop :=
  ∀ ⦃s p ws a s'⦄, s.Holds source p ws → r s = .ok (a, s') → P a ∧ ∃ p' ws', s'.Holds source p' ws'

namespace Reader.Yields

variable {r : Reader α} {P Q : α → Prop} {f : α → Reader β} {R : β → Prop}

theorem mono (h : Yields source r P) (hPQ : ∀ a, P a → Q a) : Yields source r Q := by
  intro s p ws a s' hs hr
  obtain ⟨ha, hs'⟩ := h hs hr
  exact ⟨hPQ a ha, hs'⟩

theorem pure {a : α} (h : P a) : Yields source (Pure.pure a) P := by
  intro s p ws b s' hs hr
  cases hr
  exact ⟨h, p, ws, hs⟩

theorem refuse (what : Expectation) : Yields source (Reader.refuse what) P :=
  fun _ _ _ _ _ _ h => absurd h (refuse_ne_ok _ _ _)

theorem bind (hr : Yields source r P) (hf : ∀ a, P a → Yields source (f a) R) :
    Yields source (r >>= f) R := by
  intro s p ws b s' hs h
  obtain ⟨a, s₁, h1, h2⟩ := exists_of_bind h
  obtain ⟨ha, p₁, ws₁, hs₁⟩ := hr hs h1
  exact hf a ha hs₁ h2

/-- A reader that takes words from the front. -/
theorem of_passes (h : Passes source false r) : Yields source r fun _ => True := by
  intro s p ws a s' hs hr
  obtain ⟨vs, ws', -, hs', -⟩ := h hs hr
  exact ⟨trivial, _, ws', hs'⟩

/-- What is read first does not matter. -/
theorem behind (hr : Passes source false r) (hf : ∀ a, Yields source (f a) R) :
    Yields source (r >>= f) R :=
  (of_passes hr).bind fun a _ => hf a

/-- A loop keeps what each of its steps keeps. -/
theorem iterate {step : σ → Reader (σ ⊕ α)} {hstep : Proceeds step} {I : σ → Prop}
    (h : ∀ b, I b → Yields source (step b) (Sum.elim I P)) {b : σ} (hb : I b) :
    Yields source (Reader.iterate step hstep b) P := by
  intro s p ws a s' hs hr
  fun_induction Reader.iterate step hstep b s generalizing p ws with
  | case1 => cases hr
  | case2 b s a' s₁ h1 =>
      cases hr
      exact h b hb hs h1
  | case3 b s b' s₁ h1 hlt ih =>
      obtain ⟨hb', p₁, ws₁, hs₁⟩ := h b hb hs h1
      exact ih hb' hs₁ hr

/-- A name that is read is one that the scanner finds. -/
theorem name (what : Expectation) : Yields source (Reader.name what) fun x => IsScanned x.1 := by
  intro s p ws x s' hs h
  obtain ⟨cs, w, ws', rfl, -, hkind, -, -, hs'⟩ := name_inv hs h
  obtain ⟨before, after, -, -, hreads⟩ := hs.lies
  obtain ⟨-, -, hleads, -⟩ := reads_append.mp hreads
  exact ⟨⟨w, _, hleads, hkind⟩, _, ws', hs'⟩

end Reader.Yields

-- ── Messages ─────────────────────────────────────────────────────────────────────

namespace Message

/-- All enums of a message are of one sort, all its fields of another, and its name and those of the messages in it
    of a third, at every depth. -/
inductive Declares (N : String → Prop) (P : EnumDef → Prop) (Q : Field → Prop) : Message → Prop where
  | intro {m : Message} (name : N m.name) (enums : ∀ e ∈ m.enums, P e) (fields : ∀ f ∈ m.fields, Q f)
      (messages : ∀ i ∈ m.messages, Declares N P Q i) : Declares N P Q m

/-- What an element adds to a message is of these sorts. -/
def Element.Declares (N : String → Prop) (P : EnumDef → Prop) (Q : Field → Prop) : Element → Prop
  | .nested name _ => N name
  | .enum e        => P e
  | .oneof _ fs    => ∀ f ∈ fs, Q f
  | .field f       => Q f
  | .close | .skip | .setting _ => True

variable {N : String → Prop} {P : EnumDef → Prop} {Q : Field → Prop} {m : Message}

namespace Declares

theorem of_enumsIn (h : m.Declares N P Q) (scope : String) : ∀ x ∈ enumsIn scope m, P x.2 := by
  induction h generalizing scope with
  | @intro m name enums fields messages ih =>
      intro x hx
      rw [enumsIn_eq] at hx
      rcases List.mem_append.mp hx with hx | hx
      · obtain ⟨e, he, rfl⟩ := List.mem_map.mp hx
        exact enums e he
      · obtain ⟨i, hi, hx⟩ := List.mem_flatMap.mp hx
        exact ih i hi _ x hx

theorem of_fieldsIn (h : m.Declares N P Q) (scope : String) : ∀ x ∈ fieldsIn scope m, Q x.2 := by
  induction h generalizing scope with
  | @intro m name enums fields messages ih =>
      intro x hx
      rw [fieldsIn_eq] at hx
      rcases List.mem_append.mp hx with hx | hx
      · obtain ⟨f, hf, rfl⟩ := List.mem_map.mp hx
        exact fields f hf
      · obtain ⟨i, hi, hx⟩ := List.mem_flatMap.mp hx
        exact ih i hi _ x hx

theorem empty {name : String} (hname : N name) (position : Position) :
    ({ name, position } : Message).Declares N P Q :=
  ⟨hname, List.forall_mem_nil _, List.forall_mem_nil _, List.forall_mem_nil _⟩

/-- One more element. -/
theorem push (h : m.Declares N P Q) {x : Element} (hx : x.Declares N P Q) : (m.push x).Declares N P Q := by
  obtain ⟨name, enums, fields, messages⟩ := h
  cases x with
  | close => exact ⟨name, enums, fields, messages⟩
  | skip => exact ⟨name, enums, fields, messages⟩
  | nested => exact ⟨name, enums, fields, messages⟩
  | setting => exact ⟨name, enums, fields, messages⟩
  | enum e => exact ⟨name, List.forall_mem_append.mpr ⟨enums, List.forall_mem_singleton.mpr hx⟩, fields, messages⟩
  | oneof _ fs => exact ⟨name, enums, List.forall_mem_append.mpr ⟨fields, hx⟩, messages⟩
  | field f => exact ⟨name, enums, List.forall_mem_append.mpr ⟨fields, List.forall_mem_singleton.mpr hx⟩, messages⟩

/-- One more nested message. -/
theorem pushMessage (h : m.Declares N P Q) {inner : Message} (hinner : inner.Declares N P Q) :
    (m.pushMessage inner).Declares N P Q := by
  obtain ⟨name, enums, fields, messages⟩ := h
  exact ⟨name, enums, fields, List.forall_mem_append.mpr ⟨messages, List.forall_mem_singleton.mpr hinner⟩⟩

/-- Other enums. -/
theorem mapEnums (h : m.Declares N P Q) {P' : EnumDef → Prop} {f : EnumDef → EnumDef}
    (hf : ∀ e, P e → P' (f e)) : (m.mapEnums f).Declares N P' Q := by
  induction h with
  | intro name enums fields _ ih =>
      rw [mapEnums_eq]
      exact ⟨name, List.forall_mem_map.mpr fun e he => hf e (enums e he), fields, List.forall_mem_map.mpr ih⟩

/-- Other fields. -/
theorem mapFields (h : m.Declares N P Q) {Q' : Field → Prop} {g : String → Field → Field}
    (hg : ∀ message f, Q f → Q' (g message f)) (scope : String) :
    (m.mapFields g scope).Declares N P Q' := by
  induction h generalizing scope with
  | intro name enums fields _ ih =>
      rw [mapFields_eq]
      exact ⟨name, enums, List.forall_mem_map.mpr fun f hf => hg _ f (fields f hf),
        List.forall_mem_map.mpr fun i hi => ih i hi _⟩

end Declares

variable (hN : ∀ what, Yields source (Reader.name what) fun x => N x.1)
  (hP : ∀ keyword, Yields source (EnumDef.read source keyword) P)
  (hQ : ∀ oneof, Yields source (Field.read source oneof) Q)
include hQ

/-- A statement of a choice adds a field or none. -/
theorem yields_oneofStep (name : String) {fs : List Field} (hfs : ∀ f ∈ fs, Q f) :
    Yields source (oneofStep source name fs)
      (Sum.elim (fun gs => ∀ g ∈ gs, Q g) fun gs => ∀ g ∈ gs, Q g) := by
  refine .behind .peek? fun kind => ?_
  split
  · split
    · exact .behind (.next _) fun _ => .pure hfs
    · split
      · exact .behind (.next _) fun _ => .pure hfs
      · exact .refuse _
  · split
    · exact .behind Setting.passes_readStatement fun _ => .pure hfs
    · refine (hQ (some name)).bind fun f hf => .pure ?_
      exact List.forall_mem_append.mpr ⟨hfs, List.forall_mem_singleton.mpr hf⟩
  · exact .refuse _

theorem yields_readOneof : Yields source (readOneof source) (Element.Declares N P Q) := by
  rw [readOneof_eq]
  refine .behind (.bind (.name _) fun _ => .bind (.symbol _) fun _ => .pure _) fun name => ?_
  have hfields : Yields source (Reader.iterate (oneofStep source name)
      (.of_takes (takes_oneofStep source name)) []) fun fs => ∀ f ∈ fs, Q f :=
    .iterate (fun fs hfs => yields_oneofStep hQ name hfs) (List.forall_mem_nil _)
  exact hfields.bind fun fs hfs => .pure hfs

omit hQ in
include hN in
/-- The name in the head of a message. -/
theorem yields_readHead : Yields source readHead fun x => N x.1 :=
  (hN _).bind fun _ hname => .behind (.symbol _) fun _ => .pure hname

include hN hP

/-- The element that a word starts. -/
theorem yields_readNamed (word : String) : Yields source (readNamed source word) (Element.Declares N P Q) := by
  unfold readNamed
  split
  · exact .behind (.next _) fun _ => (yields_readHead hN).bind fun _ hname => .pure hname
  split
  · exact .behind (.next _) fun keyword => (hP keyword).bind fun e he => .pure he
  split
  · exact .behind Setting.passes_readStatement fun _ => .pure trivial
  split
  · exact .behind (.next _) fun _ => yields_readOneof hQ
  split
  · exact .behind (.next _) fun _ => .behind (passes_skipPast _) fun _ => .pure trivial
  split
  · exact .behind (.next _) fun _ => .behind passes_skipBlock fun _ => .pure trivial
  · exact (hQ none).bind fun f hf => .pure hf

theorem yields_readElement : Yields source (readElement source) (Element.Declares N P Q) := by
  refine .behind .dropHeld fun _ => .behind .peek? fun kind => ?_
  split
  · exact .refuse _
  · split
    · exact .behind (.next _) fun _ => .pure trivial
    · split
      · exact .behind (.next _) fun _ => .pure trivial
      · exact .refuse _
  · exact yields_readNamed hN hP hQ _
  · exact .refuse _

/-- **The elements up to a closing brace declare what they have been read as.** -/
theorem yields_readBody (hm : m.Declares N P Q) :
    Yields source (readBody source m) (Message.Declares N P Q) := by
  intro s p ws m' s' hs h
  rw [readBody_eq_ok_iff] at h
  induction h generalizing p ws with
  | close element =>
      obtain ⟨-, p₁, ws₁, hs₁⟩ := yields_readElement hN hP hQ hs element
      exact ⟨hm, p₁, ws₁, hs₁⟩
  | push element _ _ ih =>
      obtain ⟨hx, p₁, ws₁, hs₁⟩ := yields_readElement hN hP hQ hs element
      exact ih (hm.push hx) hs₁
  | nested element _ _ ihInside ihRest =>
      obtain ⟨hname, p₁, ws₁, hs₁⟩ := yields_readElement hN hP hQ hs element
      obtain ⟨hinner, p₂, ws₂, hs₂⟩ := ihInside (.empty hname _) hs₁
      exact ihRest (hm.pushMessage hinner) hs₂

theorem yields_read : Yields source (read source) (Message.Declares N P Q) :=
  (yields_readHead hN).bind fun _ hname => yields_readBody hN hP hQ (.empty hname _)

end Message

-- ── Schemas ──────────────────────────────────────────────────────────────────────

namespace Schema

/-- All enums of a schema are of one sort, all its fields of another, and its package and all names of messages of a
    third. -/
structure Declares (N : String → Prop) (P : EnumDef → Prop) (Q : Field → Prop) (s : Schema) : Prop where
  package  : ∀ name ∈ s.package, N name
  enums    : ∀ e ∈ s.enums, P e
  messages : ∀ m ∈ s.messages, m.Declares N P Q

/-- What a statement adds to a schema is of these sorts. -/
def Item.Declares (N : String → Prop) (P : EnumDef → Prop) (Q : Field → Prop) : Item → Prop
  | .package name => N name
  | .enum e       => P e
  | .message m    => m.Declares N P Q
  | .skip | .edition _ | .path _ | .setting _ => True

variable {N : String → Prop} {P : EnumDef → Prop} {Q : Field → Prop} {s : Schema}

namespace Declares

theorem of_enumsIn (h : s.Declares N P Q) : ∀ x ∈ s.enumsIn, P x.2 := by
  intro x hx
  rw [enumsIn, Message.allEnumsIn_eq] at hx
  rcases List.mem_append.mp hx with hx | hx
  · obtain ⟨e, he, rfl⟩ := List.mem_map.mp hx
    exact h.enums e he
  · obtain ⟨m, hm, hx⟩ := List.mem_flatMap.mp hx
    exact (h.messages m hm).of_enumsIn _ x hx

theorem of_fieldsIn (h : s.Declares N P Q) : ∀ x ∈ s.fieldsIn, Q x.2 := by
  intro x hx
  rw [fieldsIn, Message.allFieldsIn_eq] at hx
  obtain ⟨m, hm, hx⟩ := List.mem_flatMap.mp hx
  exact (h.messages m hm).of_fieldsIn _ x hx

/-- One more statement. -/
theorem push (h : s.Declares N P Q) {x : Item} (hx : x.Declares N P Q) : (s.push x).Declares N P Q := by
  obtain ⟨package, enums, messages⟩ := h
  cases x with
  | package name => exact ⟨fun name hname => Option.some.inj hname ▸ hx, enums, messages⟩
  | enum e => exact ⟨package, List.forall_mem_append.mpr ⟨enums, List.forall_mem_singleton.mpr hx⟩, messages⟩
  | message m => exact ⟨package, enums, List.forall_mem_append.mpr ⟨messages, List.forall_mem_singleton.mpr hx⟩⟩
  | _ => exact ⟨package, enums, messages⟩

/-- Other enums. -/
theorem mapEnums (h : s.Declares N P Q) {P' : EnumDef → Prop} {f : EnumDef → EnumDef}
    (hf : ∀ e, P e → P' (f e)) : (s.mapEnums f).Declares N P' Q := by
  obtain ⟨package, enums, messages⟩ := h
  refine ⟨package, List.forall_mem_map.mpr fun e he => hf e (enums e he), ?_⟩
  rw [Schema.mapEnums, Message.mapAllEnums_eq]
  exact List.forall_mem_map.mpr fun m hm => (messages m hm).mapEnums hf

/-- Other fields. -/
theorem mapFields (h : s.Declares N P Q) {Q' : Field → Prop} {g : String → Field → Field}
    (hg : ∀ message f, Q f → Q' (g message f)) :
    (s.mapFields g).Declares N P Q' := by
  obtain ⟨package, enums, messages⟩ := h
  refine ⟨package, enums, ?_⟩
  rw [Schema.mapFields, Message.mapAllFields_eq]
  exact List.forall_mem_map.mpr fun m hm => (messages m hm).mapFields hg _

end Declares

variable (hN : ∀ what, Yields source (Reader.name what) fun x => N x.1)
  (hP : ∀ keyword, Yields source (EnumDef.read source keyword) P)
  (hQ : ∀ oneof, Yields source (Field.read source oneof) Q)
include hN

/-- The name of a package. -/
theorem yields_readPackage : Yields source readPackage N :=
  (hN _).bind fun _ hname => .behind (.symbol _) fun _ => .pure hname

include hP hQ

/-- The statement that a word starts. -/
theorem yields_readItemNamed (word : String) :
    Yields source (readItemNamed source word) (Item.Declares N P Q) := by
  unfold readItemNamed
  split
  · exact .behind (.next _) fun _ => .behind (.bind (.symbol _) fun _ => passes_path _) fun _ => .pure trivial
  split
  · exact .behind (.next _) fun _ => (yields_readPackage hN).bind fun _ hname => .pure hname
  split
  · exact .behind (.next _) fun _ => .behind (.bind (.accept _) fun _ => passes_path _) fun _ => .pure trivial
  split
  · exact .behind Setting.passes_readStatement fun _ => .pure trivial
  split
  · exact .behind (.next _) fun _ => (Message.yields_read hN hP hQ).bind fun m hm => .pure hm
  split
  · exact .behind (.next _) fun keyword => (hP keyword).bind fun e he => .pure he
  split
  · exact .behind (.next _) fun _ => .behind passes_skipBlock fun _ => .pure trivial
  · exact .refuse _

theorem yields_readItem : Yields source (readItem source) (Item.Declares N P Q) := by
  refine .behind .peek? fun kind => ?_
  split
  · split
    · exact .behind (.next _) fun _ => .pure trivial
    · exact .refuse _
  · exact yields_readItemNamed hN hP hQ _
  · exact .refuse _

/-- The statements up to the end of the input. -/
theorem yields_step (hs : s.Declares N P Q) :
    Yields source (step source s) (Sum.elim (Declares N P Q) (Declares N P Q)) := by
  intro t p ws x t' ht h
  rcases step_inv h with ⟨rfl, -, rfl⟩ | ⟨item, rfl, h1⟩
  · exact ⟨hs, p, ws, ht.held []⟩
  · obtain ⟨hitem, ht'⟩ := yields_readItem hN hP hQ (ht.held []) h1
    exact ⟨hs.push hitem, ht'⟩

omit hN hP hQ in
/-- **All enums, fields and names of a schema are of the sorts that can be read from its source.** -/
theorem declares_parse {source : String} (h : parse source = .ok s)
    (hN : ∀ what, Yields source.toList (Reader.name what) fun x => N x.1)
    (hP : ∀ keyword, Yields source.toList (EnumDef.read source.toList keyword) P)
    (hQ : ∀ oneof, Yields source.toList (Field.read source.toList oneof) Q) : s.Declares N P Q := by
  obtain ⟨ws, tail, s', hsource, -, hreads, hrun⟩ := parse_inv h
  have hempty : ({} : Schema).Declares N P Q := ⟨nofun, List.forall_mem_nil _, List.forall_mem_nil _⟩
  exact (Yields.iterate (fun b hb => yields_step hN hP hQ hb) hempty (holds_ofTokens hreads hsource) hrun).1

end Schema

-- ── Where enums and fields are written ───────────────────────────────────────────

namespace Token.Lies

variable {p : Place} {ws vs : List Word} {v : Word}

theorem slice_symbol {c : Char} (h : Lies source p (ws ++ v :: vs)) (hv : v.kind = .symbol c) :
    Text.slice source (v.token (p.after (textOf ws))).span = [c] := by
  rw [h.slice_token]
  obtain ⟨before, after, -, -, hreads⟩ := h
  obtain ⟨-, -, hleads, -⟩ := reads_append.mp hreads
  exact (hleads.symbol_form hv).1

theorem spelling_name {name : String} (h : Lies source p (ws ++ v :: vs)) (hv : v.kind = .ident name) :
    v.spelling = name.toList := by
  obtain ⟨before, after, -, -, hreads⟩ := h
  obtain ⟨-, -, hleads, -⟩ := reads_append.mp hreads
  exact (hleads.name_form hv).2.1.symm

end Token.Lies

/-- The braces of an enum are where it says, and it is not stored as a set of flags yet. -/
structure EnumDef.Written (source : List Char) (e : EnumDef) : Prop where
  opening : Text.slice source e.opening = ['\x7b']
  closing : Text.slice source e.closing = ['\x7d']
  storage : e.storage = none

/-- **An enum that is read is written where it says.** -/
theorem EnumDef.yields_read (keyword : Token) :
    Yields source (EnumDef.read source keyword) (EnumDef.Written source) := by
  rw [read_eq]
  intro s p ws e s' hs h
  obtain ⟨x, s₁, h1, h⟩ := exists_of_bind h
  obtain ⟨⟨b, closing, dangling⟩, s₂, h2, h3⟩ := exists_of_bind h
  cases h3
  obtain ⟨N, O, ws₁, rfl, hO, hopening, -, hs₁⟩ := readHead_inv hs h1
  obtain ⟨vs, w, ws', rfl, hw, hclosing, hs', -⟩ := readBody_inv hs₁ h2
  refine ⟨⟨?_, ?_, rfl⟩, _, ws', hs'⟩
  · rw [ofParts, hopening]
    exact hs.lies.slice_symbol hO
  · rw [ofParts, hclosing]
    exact hs₁.lies.slice_symbol hw

/-- The type of a field and its default are where it says, and it has no set of flags as its type yet. -/
structure Field.Written (source : List Char) (f : Field) : Prop where
  type : ∃ name, f.type.target = .ofName name ∧ Text.slice source f.typeSpan = name.toList
  default : ∀ d, f.default? = some d → ∃ rest,
    Text.slice source d.span = defaultOptionName.toList ++ rest ∧
      ∀ name, d.value = .ident name → name.toList <:+ Text.slice source d.span
  flags : f.flags = none

/-- A default stands where it says, from its name up to its value. -/
theorem Setting.Stands.slice {p : Place} {d : Setting} {A D ws : List Word} {w : Word}
    (h : Stands p d A w D) (hlies : Lies source p (A ++ w :: D ++ ws)) :
    ∃ rest, Text.slice source d.span = defaultOptionName.toList ++ rest ∧
      ∀ name, d.value = .ident name → name.toList <:+ Text.slice source d.span := by
  have hw : w.kind.isComment = false := by rw [h.start]; rfl
  have hentry : Lies source (p.after (textOf A)) (w :: D) := hlies.left.right
  have hslice : Text.slice source d.span = w.spelling ++ textOf D := by
    rw [h.span, spanOf, startOf_cons hw]
    exact hentry.slice
  have hname : w.spelling = defaultOptionName.toList := hlies.left.spelling_name h.start
  refine ⟨textOf D, by rw [hslice, hname], fun name hvalue => ?_⟩
  obtain ⟨us, v, hus, hv⟩ := h.last name hvalue
  have hspelling : v.spelling = name.toList := by
    rw [hus] at hentry
    exact hentry.spelling_name hv
  rw [hslice]
  cases us with
  | nil =>
      obtain ⟨rfl, rfl⟩ := List.cons.inj hus
      exact ⟨[], by rw [textOf_nil, List.append_nil, List.nil_append, hspelling]⟩
  | cons u us =>
      obtain ⟨rfl, rfl⟩ := List.cons.inj hus
      exact ⟨w.spelling ++ textOf us ++ v.blank, by simp [textOf_append, Word.text, hspelling]⟩

/-- **A field that is read is written where it says.** -/
theorem Field.yields_read (oneof : Option String) :
    Yields source (Field.read source oneof) (Field.Written source) := by
  rw [read_eq]
  intro s p ws f s' hs h
  obtain ⟨x, s₁, h1, h⟩ := exists_of_bind h
  obtain ⟨y, s₂, h2, h⟩ := exists_of_bind h
  obtain ⟨z, s₃, h3, h⟩ := exists_of_bind h
  obtain ⟨number, s₄, h4, h⟩ := exists_of_bind h
  obtain ⟨⟨xs, o⟩, s₅, h5, h⟩ := exists_of_bind h
  obtain ⟨semicolon, s₆, h6, h⟩ := exists_of_bind h
  cases h
  obtain ⟨V₁, ws₁, rfl, hs₁, -⟩ := (passes_readHead _ : Passes source false _) hs h1
  obtain ⟨V₂, ws₂, rfl, hs₂, -⟩ := (passes_readType _ _ : Passes source false _) hs₁ h2
  obtain ⟨V₃, ws₃, rfl, hs₃, -⟩ := (passes_readNamed : Passes source false _) hs₂ h3
  obtain ⟨V₄, ws₄, rfl, hs₄, -⟩ := (passes_readNumber : Passes source false _) hs₃ h4
  obtain ⟨V₅, ws₅, hws, hs₅, -⟩ := (Setting.passes_readBracketed : Passes source false _) hs₄ h5
  obtain ⟨ds, v, ws', -, -, -, -, -, hs'⟩ := symbol_inv hs₅ h6
  refine ⟨⟨slice_readType hs h1 h2, fun d hd => ?_, rfl⟩, _, ws', hs'⟩
  obtain ⟨A, w, D, B, ws₆, rfl, -, hstands, -⟩ := Setting.readBracketed_default hs₄ h5 hd
  have hlies := hs₄.lies
  rw [List.append_assoc] at hlies
  exact hstands.slice hlies

/-- **Every enum and field of a schema is written where it says.** -/
theorem Schema.written_parse {source : String} {s : Schema} (h : parse source = .ok s) :
    s.Declares IsScanned (EnumDef.Written source.toList) (Field.Written source.toList) :=
  declares_parse h .name EnumDef.yields_read Field.yields_read

end FlagSchema
