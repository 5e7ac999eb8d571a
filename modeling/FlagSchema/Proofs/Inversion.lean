import FlagSchema.Proofs.ReadingBack
import FlagSchema.Proofs.Schemas

/-!
# Parsing inverts printing

A printed schema is read back as itself, places apart, whatever its types, fields and values are called and
however deep its messages are nested.

* **`Message.recovers_readBody`**: the body of a message, by induction on the messages nested in it.
* **`Schema.recovers_statements`**: the statements of a schema.
* **`Schema.isSpelled_kinds`**: the tokens of a printed schema are written as the scanner reads them.
* **`Schema.parse_print`**: the text of a schema is parsed as that schema.
-/

namespace FlagSchema

open Token Reader

variable {source : List Char} {rest : List Kind}

-- ── Elements of messages ─────────────────────────────────────────────────────────

namespace Message

/-- An element without its places. -/
def Element.unplaced : Element → Element
  | .close         => .close
  | .skip          => .skip
  | .nested name _ => .nested name {}
  | .enum e        => .enum e.unplaced
  | .setting s     => .setting s.unplaced
  | .oneof name fs => .oneof name (fs.map Field.unplaced)
  | .field f       => .field f.unplaced

/-- Whether an element is added to the message as it is. -/
def Element.isPart : Element → Bool
  | .close | .nested _ _ => false
  | _                    => true

theorem unplaced_push (m : Message) (x : Element) : (m.push x).unplaced = m.unplaced.push x.unplaced := by
  rw [unplaced_eq, unplaced_eq m]
  cases x <;> simp [push, Element.unplaced]

theorem unplaced_pushMessage (m inner : Message) :
    (m.pushMessage inner).unplaced = m.unplaced.pushMessage inner.unplaced := by
  rw [unplaced_eq, unplaced_eq m, pushMessage, pushMessage, List.map_append]
  rfl

/-- An element is read as its first word says. -/
theorem recovers_readElement_word {word : String} {ks : List Kind} {x : Element}
    (h : Recovers Element.unplaced (.ident word :: ks) rest x (readNamed source word)) :
    Recovers Element.unplaced (.ident word :: ks) rest x (readElement source) := by
  refine .bind_nil .dropHeld fun _ _ => .bind_nil .peek? fun kind hkind => ?_
  obtain rfl : kind = some (.ident word) := hkind
  exact h

theorem recovers_readElement_setting {s : Setting} (h : s.Printable) :
    Recovers Element.unplaced s.statement rest (.setting s.unplaced) (readElement source) := by
  refine recovers_readElement_word ?_
  rw [readNamed, if_neg (by decide), if_neg (by decide), if_pos rfl]
  exact .bind_all (Setting.recovers_readStatement h) fun _ hs => .pure (congrArg Element.setting hs)

theorem recovers_readElement_enum {e : EnumDef} (h : e.Printable) :
    Recovers Element.unplaced e.kinds rest (.enum e.unplaced) (readElement source) := by
  refine recovers_readElement_word ?_
  rw [readNamed, if_neg (by decide), if_pos rfl]
  refine .bind_cons (.next _ _) fun keyword _ => ?_
  exact .bind_all (EnumDef.recovers_read h keyword) fun _ he => .pure (congrArg Element.enum he)

/-- A field does not start with the word for another statement. -/
theorem exists_word_of_field {f : Field} (h : f.Printable) :
    ∃ word ks, f.kinds = .ident word :: ks ∧ word ∉ statementWords := by
  rw [Field.kinds]
  by_cases hsingular : f.label = .singular
  · rw [hsingular]
    exact ⟨f.type.word, _, rfl, h.word hsingular⟩
  · obtain ⟨word, hkinds, hlabel⟩ := Label.exists_word hsingular
    rw [hkinds]
    refine ⟨word, _, rfl, fun hword => ?_⟩
    have hnone : ∀ w ∈ statementWords, Label.ofName? w = none := by decide
    rw [hnone word hword] at hlabel
    cases hlabel

theorem recovers_readElement_field {f : Field} (h : f.Printable) :
    Recovers Element.unplaced f.kinds rest (.field f.unplaced) (readElement source) := by
  obtain ⟨word, ks, hkinds, hword⟩ := exists_word_of_field h
  have hread : Recovers Field.unplaced f.kinds rest f.unplaced (Field.read source none) :=
    Field.recovers_read h
  rw [hkinds] at hread ⊢
  simp only [statementWords, List.mem_cons, List.not_mem_nil, or_false, not_or] at hword
  obtain ⟨hmessage, henum, hoption, honeof, hreserved, hextensions, hextend⟩ := hword
  refine recovers_readElement_word ?_
  rw [readNamed, if_neg hmessage, if_neg henum, if_neg hoption, if_neg honeof,
    if_neg (not_or.mpr ⟨hreserved, hextensions⟩), if_neg hextend]
  exact .bind_all hread fun _ hf => .pure (congrArg Element.field hf)

theorem recovers_readHead (name : String) :
    Recovers Prod.fst [.ident name, .symbol '\x7b'] rest name readHead := by
  refine .bind_cons (.name _ name) fun x hx => ?_
  exact .bind_cons (.symbol '\x7b') fun _ _ => .pure hx

theorem recovers_readElement_nested (name : String) :
    Recovers Element.unplaced [.ident "message", .ident name, .symbol '\x7b'] rest (.nested name {})
      (readElement source) := by
  refine recovers_readElement_word ?_
  rw [readNamed, if_pos rfl]
  refine .bind_cons (.next _ _) fun _ _ => .bind_all (recovers_readHead name) fun head hhead => .pure ?_
  rw [Element.unplaced, show head.1 = name from hhead]

theorem recovers_readElement_close :
    Recovers Element.unplaced [.symbol '\x7d'] rest .close (readElement source) := by
  refine .bind_nil .dropHeld fun _ _ => .bind_nil .peek? fun kind hkind => ?_
  obtain rfl : kind = some (.symbol '\x7d') := hkind
  exact .bind_cons (.next _ _) fun _ _ => .pure rfl

-- ── Bodies of messages ───────────────────────────────────────────────────────────

variable {m c : Message} {x : Element} {ks ks' : List Kind}

/-- A body goes on from a message with one more element. -/
theorem recovers_readBody_push (hx : Recovers Element.unplaced ks (ks' ++ rest) x (readElement source))
    (hpart : x.isPart = true)
    (h : ∀ m', m'.unplaced = m.unplaced.push x → Recovers unplaced ks' rest c (readBody source m')) :
    Recovers unplaced (ks ++ ks') rest c (readBody source m) := by
  rw [readBody_bind]
  refine .bind hx fun y hy => ?_
  have hpush := h (m.push y) (by rw [unplaced_push, hy])
  rw [← hy] at hpart
  cases y with
  | close => cases hpart
  | nested name _ => cases hpart
  | _ => exact hpush

/-- A body goes on from a message with more elements of one sort. -/
theorem recovers_readBody_gather {ξ ω : Type} {xs : List ξ} {kinds : ξ → List Kind} (f : ξ → ω)
    (element : ω → Element) (put : List ω → Message) (hpart : ∀ y, (element y).isPart = true)
    (hput : ∀ ys y, (put ys).push (element y) = put (ys ++ [y]))
    (hx : ∀ x ∈ xs, ∀ rest, Recovers Element.unplaced (kinds x) rest (element (f x)) (readElement source))
    (hm : m.unplaced = put [])
    (h : ∀ m', m'.unplaced = put (xs.map f) → Recovers unplaced ks rest c (readBody source m')) :
    Recovers unplaced (xs.flatMap kinds ++ ks) rest c (readBody source m) := by
  refine .gather unplaced f put (fun x hmem ys m' ks hm' hnext => ?_) [] hm h
  refine recovers_readBody_push (hx x hmem _) (hpart _) fun m'' hm'' => hnext m'' ?_
  rw [hm'', hm', hput]

/-- A body goes on from a message with one more message nested in it. -/
theorem recovers_readBody_nested {i : Message}
    (hi : ∀ {rest} {m₀ : Message}, m₀.unplaced = { name := i.name } →
      Recovers unplaced i.bodyKinds rest i.unplaced (readBody source m₀))
    (h : ∀ m', m'.unplaced = m.unplaced.pushMessage i.unplaced →
      Recovers unplaced ks rest c (readBody source m')) :
    Recovers unplaced (i.kinds ++ ks) rest c (readBody source m) := by
  rw [readBody_bind, kinds_eq]
  show Recovers unplaced ([.ident "message", .ident i.name, .symbol '\x7b'] ++ (i.bodyKinds ++ ks)) _ _ _
  refine .bind (recovers_readElement_nested i.name) fun y hy => ?_
  cases y with
  | nested name position =>
      obtain ⟨rfl, -⟩ := Element.nested.inj hy
      refine .bind (hi (by rw [unplaced_eq]; rfl)) fun inner hinner => h _ ?_
      rw [unplaced_pushMessage, hinner]
  | _ => cases hy

/-- **The body of a message is read back up to its closing brace.** -/
theorem recovers_readBody (h : m.Printable) :
    ∀ {rest} {m₀ : Message}, m₀.unplaced = { name := m.name } →
      Recovers unplaced m.bodyKinds rest m.unplaced (readBody source m₀) := by
  -- The induction is on the messages nested in a message; what carries it is the message read so far,
  -- which has the first options, then the first enums, fields and messages of the whole.
  induction h with
  | @intro m _ settings enums fields _ oneofs ih =>
      intro rest m₀ hm₀
      refine recovers_readBody_gather Setting.unplaced Element.setting
        (fun ss => { name := m.name, settings := ss }) (fun _ => rfl) (fun _ _ => rfl)
        (fun s hs _ => recovers_readElement_setting (settings s hs)) hm₀ fun m₁ hm₁ => ?_
      refine recovers_readBody_gather EnumDef.unplaced Element.enum
        (fun es => { name := m.name, settings := m.settings.map Setting.unplaced, enums := es })
        (fun _ => rfl) (fun _ _ => rfl) (fun e he _ => recovers_readElement_enum (enums e he)) hm₁ fun m₂ hm₂ => ?_
      refine recovers_readBody_gather Field.unplaced Element.field
        (fun fs => { name := m.name, settings := m.settings.map Setting.unplaced,
                     enums := m.enums.map EnumDef.unplaced, fields := fs }) (fun _ => rfl)
        (fun _ _ => rfl) (fun f hf _ => recovers_readElement_field (fields f hf)) hm₂ fun m₃ hm₃ => ?_
      refine .gather unplaced unplaced
        (fun ms => { name := m.name, settings := m.settings.map Setting.unplaced,
                     enums := m.enums.map EnumDef.unplaced, fields := m.fields.map Field.unplaced,
                     messages := ms })
        (fun i hi ms m' ks hm' hnext => ?_) [] hm₃ fun m₄ hm₄ => ?_
      · refine recovers_readBody_nested (ih i hi) fun m'' hm'' => hnext m'' ?_
        rw [hm'', hm']
        rfl
      have hall : m₄.unplaced = m.unplaced := by
        rw [hm₄, unplaced_eq m, oneofs]
        rfl
      rw [readBody_bind, ← hall]
      refine .bind_all recovers_readElement_close fun y hy => ?_
      cases y with
      | close => exact .pure rfl
      | _ => cases hy

/-- **A message is read back, after its keyword.** -/
theorem recovers_read (h : m.Printable) :
    Recovers unplaced (m.kinds.drop 1) rest m.unplaced (read source) := by
  rw [kinds_eq]
  show Recovers unplaced ([.ident m.name, .symbol '\x7b'] ++ m.bodyKinds) _ _ _
  refine .bind (recovers_readHead m.name) fun head hhead => recovers_readBody h ?_
  rw [unplaced_eq, show head.1 = m.name from hhead]
  rfl

end Message

-- ── Statements of schemas ────────────────────────────────────────────────────────

namespace Schema

/-- A statement without its places. -/
def Item.unplaced : Item → Item
  | .setting s => .setting s.unplaced
  | .message m => .message m.unplaced
  | .enum e    => .enum e.unplaced
  | x          => x

theorem unplaced_push (s : Schema) (x : Item) : (s.push x).unplaced = s.unplaced.push x.unplaced := by
  cases x <;> simp [push, unplaced, Item.unplaced]

/-- A statement is read as its first word says. -/
theorem recovers_readItem_word {word : String} {ks : List Kind} {x : Item}
    (h : Recovers Item.unplaced (.ident word :: ks) rest x (readItemNamed source word)) :
    Recovers Item.unplaced (.ident word :: ks) rest x (readItem source) := by
  refine .bind_nil .peek? fun kind hkind => ?_
  obtain rfl : kind = some (.ident word) := hkind
  exact h

theorem recovers_readItem_edition (edition : String) :
    Recovers Item.unplaced [.ident "syntax", .symbol '=', .str edition, .symbol ';'] rest (.edition edition)
      (readItem source) := by
  refine recovers_readItem_word ?_
  rw [readItemNamed, if_pos (.inl rfl)]
  have hedition : Recovers id [.symbol '=', .str edition, .symbol ';'] rest edition readEdition := by
    refine .bind_cons (.symbol '=') fun _ _ => ?_
    refine .bind_cons (recovers_readString _ edition ';') fun x hx => ?_
    exact .bind_cons (.symbol ';') fun _ _ => .pure hx
  exact .bind_cons (.next _ _) fun _ _ => .bind_all hedition fun _ h => .pure (congrArg Item.edition h)

theorem recovers_readItem_package (package : String) :
    Recovers Item.unplaced [.ident "package", .ident package, .symbol ';'] rest (.package package)
      (readItem source) := by
  refine recovers_readItem_word ?_
  rw [readItemNamed, if_neg (by decide), if_pos rfl]
  have hpackage : Recovers id [.ident package, .symbol ';'] rest package readPackage := by
    refine .bind_cons (.name _ package) fun x hx => ?_
    exact .bind_cons (.symbol ';') fun _ _ => .pure hx
  exact .bind_cons (.next _ _) fun _ _ => .bind_all hpackage fun _ h => .pure (congrArg Item.package h)

theorem recovers_readItem_import (path : String) :
    Recovers Item.unplaced [.ident "import", .str path, .symbol ';'] rest (.path path) (readItem source) := by
  refine recovers_readItem_word ?_
  rw [readItemNamed, if_neg (by decide), if_neg (by decide), if_pos rfl]
  have hpath : Recovers id [.str path, .symbol ';'] rest path readImport := by
    refine .bind_nil (.accept_none (if_neg (not_or.mpr ⟨nofun, nofun⟩))) fun _ _ => ?_
    refine .bind_cons (recovers_readString _ path ';') fun x hx => ?_
    exact .bind_cons (.symbol ';') fun _ _ => .pure hx
  exact .bind_cons (.next _ _) fun _ _ => .bind_all hpath fun _ h => .pure (congrArg Item.path h)

theorem recovers_readItem_setting {s : Setting} (h : s.Printable) :
    Recovers Item.unplaced s.statement rest (.setting s.unplaced) (readItem source) := by
  refine recovers_readItem_word ?_
  rw [readItemNamed, if_neg (by decide), if_neg (by decide), if_neg (by decide), if_pos rfl]
  exact .bind_all (Setting.recovers_readStatement h) fun _ hs => .pure (congrArg Item.setting hs)

theorem recovers_readItem_enum {e : EnumDef} (h : e.Printable) :
    Recovers Item.unplaced e.kinds rest (.enum e.unplaced) (readItem source) := by
  refine recovers_readItem_word ?_
  rw [readItemNamed, if_neg (by decide), if_neg (by decide), if_neg (by decide), if_neg (by decide),
    if_neg (by decide), if_pos rfl]
  refine .bind_cons (.next _ _) fun keyword _ => ?_
  exact .bind_all (EnumDef.recovers_read h keyword) fun _ he => .pure (congrArg Item.enum he)

theorem recovers_readItem_message {m : Message} (h : m.Printable) :
    Recovers Item.unplaced m.kinds rest (.message m.unplaced) (readItem source) := by
  have hread : Recovers Message.unplaced (m.kinds.drop 1) rest m.unplaced (Message.read source) :=
    Message.recovers_read h
  rw [Message.kinds_eq] at hread ⊢
  refine recovers_readItem_word ?_
  rw [readItemNamed, if_neg (by decide), if_neg (by decide), if_neg (by decide), if_neg (by decide),
    if_pos rfl]
  refine .bind_cons (.next _ _) fun _ _ => ?_
  exact .bind_all hread fun _ hm => .pure (congrArg Item.message hm)

-- ── Schemas ──────────────────────────────────────────────────────────────────────

variable {s c : Schema} {ks : List Kind}

/-- The statements go on from a schema with more statements of one sort. -/
theorem recovers_statements_gather {ξ ω : Type} {xs : List ξ} {kinds : ξ → List Kind} (f : ξ → ω)
    (item : ω → Item) (put : List ω → Schema) (hput : ∀ ys y, (put ys).push (item y) = put (ys ++ [y]))
    (hne : ∀ x, kinds x ≠ [])
    (hx : ∀ x ∈ xs, ∀ rest, Recovers Item.unplaced (kinds x) rest (item (f x)) (readItem source))
    (hs : s.unplaced = put [])
    (h : ∀ s', s'.unplaced = put (xs.map f) →
      Recovers unplaced ks rest c (iterate (step source) (proceeds_step source) s')) :
    Recovers unplaced (xs.flatMap kinds ++ ks) rest c (iterate (step source) (proceeds_step source) s) := by
  refine .gather unplaced f put (fun x hmem ys s' ks hs' hnext => ?_) [] hs h
  have hstep : Recovers (Sum.map unplaced unplaced) (kinds x) (ks ++ rest)
      (.inl (s'.unplaced.push (item (f x)))) (step source s') := by
    refine .bind_nil .dropHeld fun _ _ => .bind_nil .atEnd fun ended hended => ?_
    have hgoes : ended = false := by
      rw [show ended = _ from hended, List.isEmpty_eq_false_iff]
      exact List.append_ne_nil_of_left_ne_nil (hne x) _
    rw [hgoes, if_neg Bool.false_ne_true, readStatement_eq, bind_assoc]
    refine .bind_all (hx x hmem _) fun y hy => .pure (congrArg Sum.inl ?_)
    rw [unplaced_push, hy]
  refine .iterate_next unplaced hstep fun s'' hs'' => hnext s'' ?_
  rw [hs'', hs', hput]

/-- **The statements of a schema are read back up to the end.** -/
theorem recovers_statements (h : s.Printable) :
    Recovers unplaced s.kinds [] s.unplaced (iterate (step source) (proceeds_step source) {}) := by
  have hlast : ∀ o : Option String, (o.toList.map id).getLast? = o := by
    intro o
    cases o <;> rfl
  rw [kinds]
  refine recovers_statements_gather id Item.edition (fun es => { edition := es.getLast? })
    (fun es e => by rw [List.getLast?_concat]; rfl) nofun (fun e _ _ => recovers_readItem_edition e) rfl
    fun s₁ hs₁ => ?_
  rw [hlast] at hs₁
  refine recovers_statements_gather id Item.package (fun ps => { edition := s.edition, package := ps.getLast? })
    (fun ps p => by rw [List.getLast?_concat]; rfl) nofun (fun p _ _ => recovers_readItem_package p) hs₁
    fun s₂ hs₂ => ?_
  rw [hlast] at hs₂
  refine recovers_statements_gather id Item.path
    (fun is => { edition := s.edition, package := s.package, imports := is }) (fun _ _ => rfl) nofun
    (fun path _ _ => recovers_readItem_import path) hs₂ fun s₃ hs₃ => ?_
  rw [List.map_id] at hs₃
  refine recovers_statements_gather Setting.unplaced Item.setting
    (fun ss => { edition := s.edition, package := s.package, imports := s.imports, settings := ss })
    (fun _ _ => rfl) nofun (fun x hx _ => recovers_readItem_setting (h.settings x hx)) hs₃ fun s₄ hs₄ => ?_
  refine recovers_statements_gather EnumDef.unplaced Item.enum
    (fun es => { edition := s.edition, package := s.package, imports := s.imports,
                 settings := s.settings.map Setting.unplaced, enums := es })
    (fun _ _ => rfl) nofun (fun e he _ => recovers_readItem_enum (h.enums e he)) hs₄ fun s₅ hs₅ => ?_
  rw [← List.append_nil (List.flatMap _ _)]
  refine recovers_statements_gather Message.unplaced Item.message
    (fun ms => { edition := s.edition, package := s.package, imports := s.imports,
                 settings := s.settings.map Setting.unplaced, enums := s.enums.map EnumDef.unplaced,
                 messages := ms })
    (fun _ _ => rfl) (fun m => by rw [Message.kinds_eq]; exact List.cons_ne_nil _ _)
    (fun m hm _ => recovers_readItem_message (h.messages m hm)) hs₅ fun s₆ hs₆ => ?_
  refine .iterate_last unplaced ?_
  refine .bind_nil .dropHeld fun _ _ => .bind_nil .atEnd fun ended hended => ?_
  rw [show ended = true from hended, if_pos rfl]
  exact .pure (congrArg Sum.inr hs₆)

end Schema

-- ── The tokens of printed schemas ────────────────────────────────────────────────

open Token.Kind (isSpelled_ident isSpelled_symbol)

/-- A number is written with a separator in front of its digits or none. -/
theorem Token.Kind.isSpelled_number (n : Int) : ∀ k ∈ number n, k.IsSpelled := by
  rw [number]
  split
  · exact List.forall_mem_cons.mpr ⟨isSpelled_symbol (by decide), List.forall_mem_singleton.mpr ⟨_, rfl⟩⟩
  · exact List.forall_mem_singleton.mpr ⟨_, rfl⟩

theorem Constant.isSpelled_kinds {x : Constant} (h : x.Printable) : ∀ k ∈ x.kinds, k.IsSpelled := by
  cases x with
  | ident name => exact List.forall_mem_singleton.mpr h.1
  | bool b =>
      have hword : isName (if b then "true" else "false") = true := by cases b <;> decide
      exact List.forall_mem_singleton.mpr hword
  | int n => exact Kind.isSpelled_number n
  | str value => exact List.forall_mem_singleton.mpr trivial
  | float _ => exact h.elim
  | aggregate _ => exact h.elim

namespace Setting

theorem isSpelled_nameKinds {name : String} (h : IsName name) : ∀ k ∈ nameKinds name, k.IsSpelled := by
  cases h with
  | bare h =>
      rw [nameKinds_bare h]
      exact List.forall_mem_singleton.mpr h
  | @extension name h =>
      have hkinds := nameKinds_extension h ""
      rw [String.append_empty] at hkinds
      rw [hkinds]
      simp only [List.forall_mem_cons]
      exact ⟨isSpelled_symbol (by decide), h, isSpelled_symbol (by decide), List.forall_mem_nil _⟩
  | @subfield name subfields h hsub hdot =>
      rw [nameKinds_extension h]
      simp only [List.forall_mem_cons]
      refine ⟨isSpelled_symbol (by decide), h, isSpelled_symbol (by decide), ?_⟩
      split
      · exact List.forall_mem_nil _
      · exact List.forall_mem_singleton.mpr hsub

variable {s : Setting} {ss : List Setting}

theorem isSpelled_entry (h : s.Printable) : ∀ k ∈ s.entry, k.IsSpelled := by
  simp only [entry, List.forall_mem_append, List.forall_mem_cons]
  exact ⟨isSpelled_nameKinds h.name, isSpelled_symbol (by decide), Constant.isSpelled_kinds h.value⟩

theorem isSpelled_statement (h : s.Printable) : ∀ k ∈ s.statement, k.IsSpelled := by
  simp only [statement, List.forall_mem_append, List.forall_mem_cons]
  exact ⟨⟨isSpelled_ident (by decide), isSpelled_nameKinds h.name⟩, isSpelled_symbol (by decide),
    Constant.isSpelled_kinds h.value, isSpelled_symbol (by decide), List.forall_mem_nil _⟩

theorem isSpelled_brackets (h : ∀ x ∈ ss, x.Printable) : ∀ k ∈ brackets ss, k.IsSpelled := by
  have hentries : ∀ ts : List Setting, (∀ x ∈ ts, x.Printable) → ∀ k ∈ entries ts, k.IsSpelled := by
    intro ts hts
    induction ts with
    | nil => exact List.forall_mem_nil _
    | cons t ts ih =>
        obtain ⟨ht, hts⟩ := List.forall_mem_cons.mp hts
        cases ts with
        | nil => exact isSpelled_entry ht
        | cons t' ts =>
            rw [entries_cons_cons, List.forall_mem_append, List.forall_mem_cons]
            exact ⟨isSpelled_entry ht, isSpelled_symbol (by decide), ih hts⟩
  cases ss with
  | nil => exact List.forall_mem_nil _
  | cons s ss =>
      simp only [brackets, List.forall_mem_cons, List.forall_mem_append]
      exact ⟨isSpelled_symbol (by decide), hentries _ h, isSpelled_symbol (by decide), List.forall_mem_nil _⟩

end Setting

theorem TypeRef.isName_word {t : TypeRef} (h : t.Printable) : isName t.word = true := by
  cases t with
  | scalar s => cases s <;> decide
  | named name => exact h.1

theorem Field.isSpelled_kinds {f : Field} (h : f.Printable) : ∀ k ∈ f.kinds, k.IsSpelled := by
  have hlabel : ∀ k ∈ f.label.kinds, k.IsSpelled := by
    cases f.label with
    | singular => exact List.forall_mem_nil _
    | _ => exact List.forall_mem_singleton.mpr (isSpelled_ident (by decide))
  have htype := h.type
  have hword : isName f.type.word = true ∧ ∀ k ∈ f.type.arguments, k.IsSpelled := by
    cases hf : f.type with
    | single t =>
        rw [hf] at htype
        exact ⟨TypeRef.isName_word htype, List.forall_mem_nil _⟩
    | map key value =>
        rw [hf] at htype
        simp only [FieldType.arguments, List.forall_mem_cons]
        have hkey : (TypeRef.scalar key).Printable := trivial
        have hmap : isName "map" = true := by decide
        exact ⟨hmap, isSpelled_symbol (by decide), TypeRef.isName_word hkey,
          isSpelled_symbol (by decide), TypeRef.isName_word htype, isSpelled_symbol (by decide), List.forall_mem_nil _⟩
  simp only [kinds, List.forall_mem_append, List.forall_mem_cons]
  exact ⟨hlabel, hword.1, hword.2, h.name, isSpelled_symbol (by decide), ⟨_, rfl⟩,
    Setting.isSpelled_brackets h.settings, isSpelled_symbol (by decide), List.forall_mem_nil _⟩

theorem EnumValue.isSpelled_kinds {v : EnumValue} (h : v.Printable) : ∀ k ∈ v.kinds, k.IsSpelled := by
  simp only [kinds, List.forall_mem_append, List.forall_mem_cons]
  exact ⟨h.name, isSpelled_symbol (by decide), Kind.isSpelled_number v.number,
    Setting.isSpelled_brackets h.settings, isSpelled_symbol (by decide), List.forall_mem_nil _⟩

theorem EnumDef.isSpelled_kinds {e : EnumDef} (h : e.Printable) : ∀ k ∈ e.kinds, k.IsSpelled := by
  simp only [kinds, List.forall_mem_append, List.forall_mem_cons, List.forall_mem_flatMap]
  exact ⟨isSpelled_ident (by decide), h.name, isSpelled_symbol (by decide),
    fun s hs => Setting.isSpelled_statement (h.settings s hs),
    fun v hv => EnumValue.isSpelled_kinds (h.values v hv), isSpelled_symbol (by decide), List.forall_mem_nil _⟩

theorem Message.isSpelled_kinds {m : Message} (h : m.Printable) : ∀ k ∈ m.kinds, k.IsSpelled := by
  induction h with
  | @intro m name settings enums fields _ _ ih =>
      rw [kinds_eq, bodyKinds]
      simp only [List.forall_mem_append, List.forall_mem_cons, List.forall_mem_flatMap]
      exact ⟨isSpelled_ident (by decide), name, isSpelled_symbol (by decide),
        fun s hs => Setting.isSpelled_statement (settings s hs),
        fun e he => EnumDef.isSpelled_kinds (enums e he), fun f hf => Field.isSpelled_kinds (fields f hf),
        ih, isSpelled_symbol (by decide), List.forall_mem_nil _⟩

namespace Schema

/-- **The tokens of a printed schema are written as the scanner reads them.** -/
theorem isSpelled_kinds {s : Schema} (h : s.Printable) : ∀ k ∈ s.kinds, k.IsSpelled := by
  simp only [kinds, List.forall_mem_append, List.forall_mem_cons, List.forall_mem_flatMap, Option.mem_toList]
  exact ⟨fun edition _ => ⟨isSpelled_ident (by decide), isSpelled_symbol (by decide), trivial,
      isSpelled_symbol (by decide), List.forall_mem_nil _⟩,
    fun package hpackage => ⟨isSpelled_ident (by decide), h.package package hpackage,
      isSpelled_symbol (by decide), List.forall_mem_nil _⟩,
    fun path _ => ⟨isSpelled_ident (by decide), trivial, isSpelled_symbol (by decide), List.forall_mem_nil _⟩,
    fun x hx => Setting.isSpelled_statement (h.settings x hx),
    fun e he => EnumDef.isSpelled_kinds (h.enums e he),
    fun m hm => Message.isSpelled_kinds (h.messages m hm)⟩

-- ── Parsing what is printed ──────────────────────────────────────────────────────

/-- **Parsing inverts printing.** The text of a schema is parsed as a schema that differs from it in its
    places alone. -/
theorem parse_print {s : Schema} (h : s.Printable) :
    ∃ g, parse s.print = .ok g ∧ g.unplaced = s.unplaced := by
  have hspelled := isSpelled_kinds h
  obtain ⟨ts, htokens, hkinds⟩ := tokenize_spaced hspelled
  have hcomment : ∀ t ∈ ts, t.kind.isComment = false := by
    intro t ht
    have hkind : t.kind.IsSpelled := hspelled _ (hkinds ▸ List.mem_map_of_mem ht)
    cases hk : t.kind with
    | comment text => rw [hk] at hkind; exact hkind.elim
    | _ => rfl
  have hsignificant : significant ts = ts := by
    rw [significant, List.filter_eq_self]
    intro t ht
    rw [hcomment t ht]
    rfl
  have hstream : (Stream.ofTokens ts).kinds = s.kinds ++ [] := by
    rw [Stream.kinds_ofTokens, hsignificant, hkinds, List.append_nil]
  have hread : Recovers unplaced s.kinds [] s.unplaced
      (iterate (step s.print.toList) (proceeds_step s.print.toList) {}) := recovers_statements h
  obtain ⟨g, s', hrun, -, -, hg⟩ := hread (Stream.uncommented_ofTokens hcomment) hstream
  refine ⟨g, ?_, hg⟩
  rw [parse, print, htokens]
  show ofTokens s.print.toList ts = _
  rw [ofTokens, hrun]
  rfl

end Schema

-- ── Words of the language as names ───────────────────────────────────────────────

/-- A field that is named by a word of the language, as its type is. -/
def keywordField (label : Label) (type : FieldType) (name : String) (number : Nat) : Field :=
  { name, position := {}, label, type, number, settings := [], oneof := none, typeSpan := {}, flags := none }

/-- A schema whose types, fields and values are named by the words of the language. -/
def keywordSchema : Schema where
  edition := some "proto3"
  package := some "a.b"
  imports := ["c/d.proto"]
  settings := [⟨"(e.f).g.h", .str "say \"\\\n", {}, none⟩]
  enums := [{
    name := "enum", position := {}, keyword := {}, opening := {}, closing := {},
    settings := [⟨"allow_alias", .bool true, {}, none⟩],
    values := [
      ⟨"option", {}, {}, 0, [], none, [], none⟩,
      ⟨"reserved", {}, {}, -1, [⟨"(i)", .int (-2), {}, none⟩, ⟨"j.k", .ident "option", {}, none⟩], none, [],
        none⟩],
    dangling := [], storage := none }]
  messages := [{
    name := "message",
    fields := [
      keywordField .singular (.single (.named "optional")) "optional" 1,
      keywordField .repeated (.single (.named "repeated")) "repeated" 2,
      keywordField .singular (.map .string (.named "map")) "map" 3,
      keywordField .required (.single (.named "message")) "option" 4],
    messages := [{
      name := "enum",
      fields := [keywordField .singular (.single (.named "map")) "reserved" 5] }] }]

theorem printable_keywordField {label : Label} {type : FieldType} {name word : String} {number : Nat}
    (htype : type.target = .named word) (hword : word ∈ ["optional", "repeated", "map", "message"])
    (hname : isName name = true) (hstatement : label = .singular → type.word ∉ Message.statementWords)
    (hnumber : 1 ≤ number ∧ number ≤ maxFieldNumber) : (keywordField label type name number).Printable := by
  have hnamed : ∀ w ∈ ["optional", "repeated", "map", "message"],
      isName w = true ∧ Scalar.ofKeyword? w = none ∧ w ≠ "group" := by decide
  refine ⟨hname, ?_, hstatement, hnumber, List.forall_mem_nil _, rfl, rfl⟩
  show type.target.Printable
  rw [htype]
  exact hnamed word hword

theorem printable_keywordSchema : keywordSchema.Printable := by
  have hsubfield : Setting.IsName "(e.f).g.h" := by
    have htext : "(e.f).g.h" = "(" ++ "e.f" ++ ")" ++ ".g.h" := by decide
    rw [htext]
    exact .subfield (by decide) (by decide) (by decide)
  have hextension : Setting.IsName "(i)" := by
    have htext : "(i)" = "(" ++ "i" ++ ")" := by decide
    rw [htext]
    exact .extension (by decide)
  have hint : (Constant.int (-2)).Printable := show (2 : Nat) < integerLimit by decide
  refine ⟨by decide, ?_, ?_, ?_⟩
  · exact List.forall_mem_singleton.mpr ⟨hsubfield, trivial, rfl⟩
  · refine List.forall_mem_singleton.mpr ⟨by decide, ?_, ?_, rfl, rfl⟩
    · exact List.forall_mem_singleton.mpr ⟨.bare (by decide), trivial, rfl⟩
    · refine List.forall_mem_cons.mpr ⟨⟨by decide, by decide, List.forall_mem_nil _, rfl, rfl⟩,
        List.forall_mem_singleton.mpr ⟨by decide, by decide, ?_, rfl, rfl⟩⟩
      refine List.forall_mem_cons.mpr ⟨⟨hextension, hint, rfl⟩, List.forall_mem_singleton.mpr ?_⟩
      exact ⟨.bare (by decide), ⟨by decide, by decide⟩, rfl⟩
  · refine List.forall_mem_singleton.mpr
      (.intro (by decide) (List.forall_mem_nil _) (List.forall_mem_nil _) ?_ ?_ rfl)
    · simp only [List.forall_mem_cons]
      refine ⟨?_, ?_, ?_, ?_, List.forall_mem_nil _⟩ <;>
        exact printable_keywordField rfl (by decide) (by decide) (by decide) (by decide)
    · refine List.forall_mem_singleton.mpr
        (.intro (by decide) (List.forall_mem_nil _) (List.forall_mem_nil _) ?_ (List.forall_mem_nil _) rfl)
      exact List.forall_mem_singleton.mpr
        (printable_keywordField rfl (by decide) (by decide) (by decide) (by decide))

/-- Words of the language as names are read back as names. -/
theorem Schema.parse_print_keywordSchema :
    keywordSchema.Printable ∧
      keywordSchema.print =
        "syntax = \"proto3\" ; package a.b ; import \"c/d.proto\" ; " ++
        "option ( e.f ) .g.h = \"say \\\"\\\\\\n\" ; " ++
        "enum enum \x7b option allow_alias = true ; option = 0 ; " ++
        "reserved = - 1 [ ( i ) = - 2 , j.k = option ] ; \x7d " ++
        "message message \x7b optional optional = 1 ; repeated repeated repeated = 2 ; " ++
        "map < string , map > map = 3 ; required message option = 4 ; " ++
        "message enum \x7b map reserved = 5 ; \x7d \x7d" ∧
      ∃ g, Schema.parse keywordSchema.print = .ok g ∧ g.unplaced = keywordSchema.unplaced :=
  ⟨printable_keywordSchema, by decide +kernel, Schema.parse_print printable_keywordSchema⟩

end FlagSchema
