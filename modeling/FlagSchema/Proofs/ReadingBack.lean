import FlagSchema.Proofs.Recovery
import FlagSchema.Proofs.Spelling
import FlagSchema.Reading.Enum

/-!
# Printed declarations are read back

Options, fields and enums are read back from the tokens that they are printed as, in the order of the
readers. What a word means is decided by the token behind it, so most statements here say what comes next.

* **`Setting.recovers_readStatement`**, **`Setting.recovers_readBracketed`**: options.
* **`Field.recovers_read`**: a field; a word for a label in front of a name and `=` is its type.
* **`EnumDef.recovers_read`**: an enum; a value may have the name of a statement.
-/

namespace FlagSchema

open Token Reader

variable {source : List Char} {rest : List Kind}

-- ── Numbers ──────────────────────────────────────────────────────────────────────

theorem recovers_readInteger (what : Expectation) {n : Nat} (h : n < integerLimit) :
    Recovers Prod.fst [.int n.repr] rest n (readInteger what) := by
  refine .bind_cons (.next _ _) fun t ht => ?_
  simp only [ht, integerValue?_repr h]
  exact .pure rfl

theorem recovers_readNumber {n : Nat} (h : n < integerLimit) :
    Recovers Prod.fst [.int n.repr] rest (.int n) readNumber := by
  refine .bind_cons (.next _ _) fun t ht => ?_
  simp only [ht, integerValue?_repr h]
  exact .pure rfl

-- ── Constants ────────────────────────────────────────────────────────────────────

/-- A string in front of a symbol is read to its end. -/
theorem recovers_readString (what : Expectation) (value : String) (c : Char) :
    Recovers Prod.fst [.str value] (.symbol c :: rest) value (readString what) := by
  refine .bind_cons (.require what rfl) fun first hfirst => ?_
  refine .iterate_last unseen ?_
  refine .bind_nil (.accept_none rfl) fun more hmore => ?_
  rw [show more = none from hmore]
  exact .pure (congrArg Sum.inr hfirst)

/-- A name that is no other constant stands for itself. -/
theorem Constant.ofName_eq_ident {name : String} (h : name ∉ ["true", "false", "inf", "nan"]) :
    Constant.ofName name = .ident name := by
  simp only [List.mem_cons, List.not_mem_nil, or_false, not_or] at h
  obtain ⟨htrue, hfalse, hinf, hnan⟩ := h
  rw [Constant.ofName, if_neg htrue, if_neg hfalse, namedNumber?, if_neg hinf, if_neg hnan]
  rfl

/-- A number is read back with its sign. -/
theorem Constant.recovers_read_int {n : Int} (h : n.natAbs < integerLimit) :
    Recovers Prod.fst (Kind.number n) rest (.int n) (Constant.read source) := by
  rw [Kind.number]
  split
  · next hn =>
      refine .bind_nil .peek? fun kind hkind => ?_
      obtain rfl : kind = some (.symbol '-') := hkind
      refine .bind_cons (.next _ _) fun _ _ => ?_
      refine .bind_all (recovers_readNumber h) fun x hx => .pure ?_
      show x.1.negated = .int n
      have hsign : -(n.natAbs : Int) = n := by omega
      rw [hx, Constant.negated, hsign]
  · next hn =>
      refine .bind_nil .peek? fun kind hkind => ?_
      obtain rfl : kind = some (.int n.natAbs.repr) := hkind
      have hcast : (n.natAbs : Int) = n := by omega
      have hread : Recovers Prod.fst [.int n.natAbs.repr] rest (.int n.natAbs) readNumber :=
        recovers_readNumber h
      rwa [hcast] at hread

/-- **A constant is read back in front of a symbol.** -/
theorem Constant.recovers_read {x : Constant} (h : x.Printable) (c : Char) :
    Recovers Prod.fst x.kinds (.symbol c :: rest) x (Constant.read source) := by
  cases x with
  | ident name =>
      refine .bind_nil .peek? fun kind hkind => ?_
      obtain rfl : kind = some (.ident name) := hkind
      exact .bind_cons (.next _ _) fun _ _ => .pure (Constant.ofName_eq_ident h.2)
  | bool b =>
      refine .bind_nil .peek? fun kind hkind => ?_
      obtain rfl : kind = some (.ident (if b then "true" else "false")) := hkind
      refine .bind_cons (.next _ _) fun _ _ => .pure ?_
      cases b <;> rfl
  | int n => exact Constant.recovers_read_int h
  | str value =>
      refine .bind_nil .peek? fun kind hkind => ?_
      obtain rfl : kind = some (.str value) := hkind
      exact .bind_all (recovers_readString _ value c) fun x hx => .pure (congrArg Constant.str hx)
  | float _ => exact h.elim
  | aggregate _ => exact h.elim

-- ── Names of options ─────────────────────────────────────────────────────────────

namespace Setting

theorem nameKinds_bare {name : String} (h : isName name = true) : nameKinds name = [.ident name] := by
  rw [nameKinds]
  split
  · next cs hcs =>
      have hparen := nameChars_of_isName h '(' (by rw [hcs]; exact List.mem_cons_self ..)
      exact absurd hparen (by decide)
  · rfl

/-- The parentheses around the name of an extension are found again. -/
theorem nameKinds_extension {name : String} (h : isName name = true) (subfields : String) :
    nameKinds ("(" ++ name ++ ")" ++ subfields) =
      .symbol '(' :: .ident name :: .symbol ')' ::
        if subfields.toList.isEmpty then [] else [.ident subfields] := by
  have htext : ("(" ++ name ++ ")" ++ subfields).toList =
      '(' :: (name.toList ++ ')' :: subfields.toList) := by
    simp only [String.toList_append, String.reduceToList, List.append_assoc, List.cons_append,
      List.nil_append]
  have hcut : cut (· ≠ ')') (name.toList ++ ')' :: subfields.toList) =
      (name.toList, ')' :: subfields.toList) := by
    refine cut_eq_iff.mpr ⟨fun c hc => ?_, fun c hc => ?_⟩
    · rcases nameChars_of_isName h c hc with hchar | rfl
      · refine decide_eq_true fun hparen => ?_
        rw [hparen] at hchar
        exact absurd hchar (by decide)
      · decide
    · obtain rfl := Option.some.inj hc
      decide
  rw [nameKinds, htext]
  simp only [hcut, List.tail_cons, String.ofList_toList]

/-- No sub-field follows in front of `=`. -/
theorem recovers_subfields_end (name : String) :
    Recovers id [] (.symbol '=' :: rest) name (iterate subfieldStep proceeds_subfieldStep name) := by
  refine .iterate_last id ?_
  refine .bind_nil (.accept_none rfl) fun more hmore => ?_
  rw [show more = none from hmore]
  exact .pure rfl

/-- A name without parentheses. -/
theorem recovers_readBareName (name : String) :
    Recovers id [.ident name] (.symbol '=' :: rest) name readBareName := by
  refine .bind_nil (.acceptSymbol_false nofun) fun found hfound => ?_
  rw [show found = false from hfound]
  exact .bind_cons (.name _ name) fun x hx => .pure hx

/-- The name of an extension in parentheses. -/
theorem recovers_readBareName_extension (name : String) :
    Recovers id [.symbol '(', .ident name, .symbol ')'] rest ("(" ++ name ++ ")") readBareName := by
  refine .bind_cons (.acceptSymbol_true '(') fun found hfound => ?_
  rw [show found = true from hfound]
  refine .bind_cons (.name _ name) fun x hx => ?_
  refine .bind_cons (.symbol ')') fun _ _ => .pure ?_
  rw [hx]
  rfl

/-- Sub-fields, with the dot in front of them, are one name, and one step takes it. -/
theorem recovers_subfieldStep {subfields : String} (hdot : subfields.toList.head? = some '.') (name : String) :
    Recovers (Sum.map id id) [.ident subfields] rest (.inl (name ++ subfields)) (subfieldStep name) := by
  have hform : subfieldForm (.ident subfields) = some subfields := if_pos hdot
  refine .bind_cons (.accept_some hform) fun more hmore => ?_
  obtain ⟨x, rfl, hx⟩ := Option.map_eq_some_iff.mp hmore
  exact .pure (congrArg (fun sub => Sum.inl (name ++ sub)) hx)

/-- **The name of an option is read back in front of `=`.** -/
theorem recovers_readOptionName {name : String} (h : IsName name) :
    Recovers id (nameKinds name) (.symbol '=' :: rest) name readOptionName := by
  cases h with
  | bare h =>
      rw [nameKinds_bare h]
      refine .bind_all (recovers_readBareName name) fun bare hname => ?_
      rw [show bare = name from hname]
      exact recovers_subfields_end name
  | @extension name h =>
      have hkinds := nameKinds_extension h ""
      rw [String.append_empty] at hkinds
      rw [hkinds]
      refine .bind_all (recovers_readBareName_extension name) fun bare hbare => ?_
      rw [show bare = "(" ++ name ++ ")" from hbare]
      exact recovers_subfields_end _
  | @subfield name subfields h hsub hdot =>
      have hnonempty : subfields.toList.isEmpty = false := by
        cases hlist : subfields.toList with
        | nil => rw [hlist] at hdot; cases hdot
        | cons c cs => rfl
      rw [nameKinds_extension h, hnonempty]
      show Recovers id ([.symbol '(', .ident name, .symbol ')'] ++ [.ident subfields]) _ _ _
      refine .bind (recovers_readBareName_extension name) fun bare hbare => ?_
      rw [show bare = "(" ++ name ++ ")" from hbare]
      show Recovers id ([.ident subfields] ++ []) _ _ _
      refine .iterate_next id (recovers_subfieldStep hdot _) fun longer hlonger => ?_
      rw [show longer = "(" ++ name ++ ")" ++ subfields from hlonger]
      exact recovers_subfields_end _

-- ── Options ──────────────────────────────────────────────────────────────────────

variable {s : Setting} {ss : List Setting}

/-- **An option is read back from its statement.** -/
theorem recovers_readStatement (h : s.Printable) :
    Recovers unplaced s.statement rest s.unplaced (readStatement source) := by
  refine .bind_cons (.next _ _) fun keyword _ => ?_
  refine .bind (recovers_readOptionName h.name) fun name hname => ?_
  refine .bind_cons (.symbol '=') fun _ _ => ?_
  refine .bind (Constant.recovers_read h.value ';') fun value hvalue => ?_
  refine .bind_cons (.symbol ';') fun semicolon _ => ?_
  refine .bind_nil (.trailing _) fun trailing htrailing => .pure ?_
  obtain ⟨sname, svalue, span, strailing⟩ := s
  obtain rfl : name = sname := hname
  obtain rfl : value.1 = svalue := hvalue
  obtain rfl : trailing = none := htrailing
  obtain rfl : strailing = none := h.trailing
  rfl

/-- An option in brackets is read back in front of a comma or the closing bracket. -/
theorem recovers_readEntry (h : s.Printable) (c : Char) :
    Recovers unplaced s.entry (.symbol c :: rest) s.unplaced (readEntry source) := by
  refine .bind_nil .nextStart fun start _ => ?_
  refine .bind (recovers_readOptionName h.name) fun name hname => ?_
  refine .bind_cons (.symbol '=') fun _ _ => ?_
  refine .bind_all (Constant.recovers_read h.value c) fun value hvalue => .pure ?_
  obtain ⟨sname, svalue, span, strailing⟩ := s
  obtain rfl : name = sname := hname
  obtain rfl : value.1 = svalue := hvalue
  obtain rfl : strailing = none := h.trailing
  rfl

/-- Options between brackets are read back one after another; a comma says that another follows. -/
theorem recovers_entries (hne : ss ≠ []) (h : ∀ x ∈ ss, x.Printable) (read : List Setting) :
    Recovers (List.map unplaced) (entries ss) (.symbol ']' :: rest) (read.map unplaced ++ ss.map unplaced)
      (iterate (entryStep source) (.of_takes (takes_entryStep source)) read) := by
  induction ss generalizing read with
  | nil => exact absurd rfl hne
  | cons s ss ih =>
      obtain ⟨hs, hss⟩ := List.forall_mem_cons.mp h
      cases ss with
      | nil =>
          refine .iterate_last (List.map unplaced) ?_
          refine .bind_all (recovers_readEntry hs ']') fun entry hentry => ?_
          refine .bind_nil (.acceptSymbol_false (by decide)) fun more hmore => ?_
          rw [show more = false from hmore]
          refine .pure (congrArg Sum.inr ?_)
          rw [List.map_append, List.map_singleton, List.map_singleton, hentry]
      | cons s' ss =>
          have hentries : entries (s :: s' :: ss) = (s.entry ++ [.symbol ',']) ++ entries (s' :: ss) := by
            rw [entries_cons_cons, List.append_assoc, List.singleton_append]
          rw [hentries]
          have hstep : Recovers (Sum.map (List.map unplaced) (List.map unplaced)) (s.entry ++ [.symbol ','])
              (entries (s' :: ss) ++ .symbol ']' :: rest) (.inl (read.map unplaced ++ [s.unplaced]))
              (entryStep source read) := by
            refine .bind (recovers_readEntry hs ',') fun entry hentry => ?_
            refine .bind_cons (.acceptSymbol_true ',') fun more hmore => ?_
            rw [show more = true from hmore]
            refine .pure (congrArg Sum.inl ?_)
            rw [List.map_append, List.map_singleton, hentry]
          refine .iterate_next (List.map unplaced) hstep fun read' hread' => ?_
          have hrest := ih (List.cons_ne_nil _ _) hss read'
          rw [hread', List.append_assoc] at hrest
          exact hrest

/-- **Options are read back from brackets in front of a semicolon, and none from no brackets.** -/
theorem recovers_readBracketed (h : ∀ x ∈ ss, x.Printable) :
    Recovers (fun x => x.1.map unplaced) (brackets ss) (.symbol ';' :: rest) (ss.map unplaced)
      (readBracketed source) := by
  cases ss with
  | nil =>
      refine .bind_nil (.accept_none rfl) fun found hfound => ?_
      rw [show found = none from hfound]
      exact .pure rfl
  | cons s ss =>
      refine .bind_cons (.accept_some rfl) fun found hfound => ?_
      obtain ⟨⟨_, opening⟩, rfl, -⟩ := Option.map_eq_some_iff.mp hfound
      refine .bind (recovers_entries (List.cons_ne_nil s ss) h []) fun settings hsettings => ?_
      exact .bind_cons (.symbol ']') fun closing _ => .pure hsettings

end Setting

-- ── Fields ───────────────────────────────────────────────────────────────────────

theorem TypeRef.ofName_word {t : TypeRef} (h : t.Printable) : TypeRef.ofName t.word = t := by
  rw [TypeRef.ofName]
  cases t with
  | scalar s => rw [word, Scalar.ofKeyword?_keyword]
  | named name => rw [word, h.2.1]

theorem TypeRef.word_ne_group {t : TypeRef} (h : t.Printable) : t.word ≠ "group" := by
  cases t with
  | scalar s => cases s <;> decide
  | named name => exact h.2.2

/-- A label is written as the word that stands for it. -/
theorem Label.exists_word {label : Label} (h : label ≠ .singular) :
    ∃ word, label.kinds = [.ident word] ∧ Label.ofName? word = some label := by
  cases label with
  | singular => exact absurd rfl h
  | optional => exact ⟨"optional", rfl, by decide⟩
  | required => exact ⟨"required", rfl, by decide⟩
  | repeated => exact ⟨"repeated", rfl, by decide⟩

/-- A type that starts with the word of a label has no arguments. -/
theorem FieldType.arguments_of_label {type : FieldType} {label : Label}
    (h : Label.ofName? type.word = some label) : type.arguments = [] := by
  cases type with
  | single t => rfl
  | map key value =>
      have hmap : Label.ofName? "map" = none := by decide
      rw [FieldType.word, hmap] at h
      cases h

namespace Field

variable {f : Field}

/-- **The label and the type of a field are told apart.** In front of a name and `=`, the word for a label
    is a type; with anything else in front of `=`, it is a label. -/
theorem recovers_readHead (f : Field) :
    Recovers (fun x => (x.1, x.2.1)) (f.label.kinds ++ [.ident f.type.word])
      (f.type.arguments ++ .ident f.name :: .symbol '=' :: rest) (f.label, f.type.word) (readHead false) := by
  obtain ⟨name, -, label, type, -, -, -, -, -⟩ := f
  dsimp only
  by_cases hsingular : label = .singular
  · subst hsingular
    refine .bind_cons (.name _ type.word) fun x hx => ?_
    obtain ⟨_, token⟩ := x
    obtain rfl := hx
    cases hlabel : Label.ofName? type.word with
    | none =>
        simp only [hlabel]
        exact .pure rfl
    | some label =>
        simp only [hlabel]
        rw [FieldType.arguments_of_label hlabel]
        refine .bind_nil (.symbolAhead 1 '=') fun isType hisType => ?_
        rw [show isType = true from hisType]
        exact .pure rfl
  · obtain ⟨word, hkinds, hlabel⟩ := Label.exists_word hsingular
    rw [hkinds]
    refine .bind_cons (.name _ word) fun x hx => ?_
    obtain ⟨_, token⟩ := x
    obtain rfl := hx
    simp only [hlabel]
    refine .bind_nil (.symbolAhead 1 '=') fun isType hisType => ?_
    have hfalse : isType = false := by
      rw [show isType = _ from hisType]
      cases type <;> rfl
    rw [hfalse]
    refine .bind_cons (.name _ type.word) fun x hx => .pure ?_
    rw [hx]

/-- The types of a map. -/
theorem recovers_readMap {key : Scalar} {value : TypeRef} (h : value.Printable) :
    Recovers Prod.fst (FieldType.map key value).arguments rest (FieldType.map key value) readMap := by
  refine .bind_cons (.symbol '<') fun _ _ => ?_
  refine .bind_cons (.name _ key.keyword) fun x hx => ?_
  obtain ⟨_, keyToken⟩ := x
  obtain rfl := hx
  simp only [Scalar.ofKeyword?_keyword]
  refine .bind_cons (.symbol ',') fun _ _ => ?_
  refine .bind_cons (.name _ value.word) fun x hx => ?_
  refine .bind_cons (.symbol '>') fun _ _ => .pure ?_
  rw [hx, TypeRef.ofName_word h]

/-- The type of a field, after its first word and in front of the name of the field. -/
theorem recovers_readType {type : FieldType} (h : type.target.Printable) (name : String) (token : Token) :
    Recovers Prod.fst type.arguments (.ident name :: rest) type (readType type.word token) := by
  cases type with
  | single t =>
      have hgroup : t.word ≠ "group" := TypeRef.word_ne_group h
      rw [readType, FieldType.word, if_neg hgroup]
      refine .bind_nil (.symbolAhead 0 '<') fun isMap hisMap => ?_
      rw [show isMap = false from hisMap, if_neg (fun hmap => Bool.false_ne_true hmap.2)]
      exact .pure (congrArg FieldType.single (TypeRef.ofName_word h))
  | map key value =>
      rw [readType, FieldType.word, if_neg (by decide)]
      refine .bind_nil (.symbolAhead 0 '<') fun isMap hisMap => ?_
      rw [show isMap = true from hisMap, if_pos ⟨rfl, rfl⟩]
      exact recovers_readMap h

theorem recovers_readNumber {n : Nat} (h : 1 ≤ n ∧ n ≤ maxFieldNumber) :
    Recovers id [.int n.repr] rest n Field.readNumber := by
  have hlimit : n < integerLimit := Nat.lt_of_le_of_lt h.2 (by decide)
  refine .bind_cons (recovers_readInteger _ hlimit) fun x hx => ?_
  obtain ⟨_, token⟩ := x
  obtain rfl := hx
  dsimp only
  rw [if_pos h]
  exact .pure rfl

/-- **A field is read back from its statement.** -/
theorem recovers_read (h : f.Printable) :
    Recovers unplaced f.kinds rest f.unplaced (read source none) := by
  have hkinds : f.kinds = (f.label.kinds ++ [.ident f.type.word]) ++ (f.type.arguments ++
      .ident f.name :: .symbol '=' :: .int f.number.repr :: (Setting.brackets f.settings ++ [.symbol ';'])) := by
    rw [kinds, List.append_assoc, List.singleton_append]
  have hhead : Recovers (fun x => (x.1, x.2.1)) (f.label.kinds ++ [.ident f.type.word])
      ((f.type.arguments ++ .ident f.name :: .symbol '=' :: .int f.number.repr ::
        (Setting.brackets f.settings ++ [.symbol ';'])) ++ rest) (f.label, f.type.word) (readHead false) := by
    rw [List.append_assoc]
    exact recovers_readHead f
  rw [hkinds]
  refine .bind hhead fun head hhead => ?_
  obtain ⟨label, word, token⟩ := head
  obtain ⟨rfl, rfl⟩ := Prod.mk.inj hhead
  refine .bind (recovers_readType h.type f.name token) fun type htype => ?_
  refine .bind_cons (.name _ f.name) fun name hname => ?_
  refine .bind_cons (.symbol '=') fun _ _ => ?_
  refine .bind_cons (recovers_readNumber h.number) fun number hnumber => ?_
  refine .bind (Setting.recovers_readBracketed h.settings) fun settings hsettings => ?_
  refine .bind_cons (.symbol ';') fun _ _ => .pure ?_
  have honeof := h.oneof
  have hflags := h.flags
  obtain ⟨fname, position, flabel, ftype, fnumber, fsettings, oneof, typeSpan, flags⟩ := f
  obtain rfl : type.1 = ftype := htype
  obtain rfl : name.1 = fname := hname
  obtain rfl : number = fnumber := hnumber
  obtain rfl : oneof = none := honeof
  obtain rfl : flags = none := hflags
  simp only [unplaced, hsettings]

end Field

-- ── Enums ────────────────────────────────────────────────────────────────────────

/-- The sign in front of the number of an enum value is a token of its own. -/
theorem recovers_signed {α γ : Type} {view : α → γ} {c : γ} {n : Int} {ks : List Kind} {f : Bool → Reader α}
    (h : n.natAbs < integerLimit)
    (hf : ∀ negative m, (if negative then -(m : Int) else m) = n → m < integerLimit →
      Recovers view (.int m.repr :: ks) rest c (f negative)) :
    Recovers view (Kind.number n ++ ks) rest c (acceptSymbol '-' >>= f) := by
  rw [Kind.number]
  split
  · next hn =>
      refine .bind_cons (.acceptSymbol_true '-') fun negative hnegative => ?_
      rw [show negative = true from hnegative]
      exact hf true _ (by rw [if_pos rfl]; omega) h
  · next hn =>
      refine .bind_nil (.acceptSymbol_false nofun) fun negative hnegative => ?_
      rw [show negative = false from hnegative]
      exact hf false _ (by rw [if_neg Bool.false_ne_true]; omega) h

/-- **An enum value is read back from its statement.** -/
theorem EnumValue.recovers_read {v : EnumValue} (h : v.Printable) :
    Recovers unplaced v.kinds rest v.unplaced (EnumValue.read source) := by
  refine .bind_cons (.name _ v.name) fun name hname => ?_
  refine .bind_nil .takeHeld fun leading hleading => ?_
  refine .bind_cons (.symbol '=') fun _ _ => ?_
  refine recovers_signed h.number fun negative n hn hlimit => ?_
  refine .bind_cons (recovers_readInteger _ hlimit) fun number hnumber => ?_
  refine .bind (Setting.recovers_readBracketed h.settings) fun settings hsettings => ?_
  refine .bind_cons (.symbol ';') fun semicolon _ => ?_
  refine .bind_nil (.trailing _) fun trailing htrailing => .pure ?_
  have hnone := h.trailing
  have hnil := h.leading
  obtain ⟨vname, position, span, vnumber, vsettings, settingsSpan, vleading, vtrailing⟩ := v
  obtain rfl : name.1 = vname := hname
  obtain rfl : number.1 = n := hnumber
  obtain rfl : leading = [] := hleading
  obtain rfl : trailing = none := htrailing
  obtain rfl : vleading = [] := hnil
  obtain rfl : vtrailing = none := hnone
  obtain rfl : _ = vnumber := hn
  simp only [unplaced, hsettings]

namespace EnumDef

/-- What has been read of an enum, without its places. -/
def Body.unplaced (b : Body) : Body :=
  ⟨b.settings.map Setting.unplaced, b.values.map EnumValue.unplaced⟩

variable {body : Body}

/-- The word `option` in front of anything but `=` starts an option. -/
theorem recovers_bodyStep_setting {s : Setting} (h : s.Printable) :
    Recovers (Sum.map Body.unplaced (Body.unplaced ∘ Prod.fst)) s.statement rest
      (.inl { body.unplaced with settings := body.unplaced.settings ++ [s.unplaced] })
      (bodyStep source body) := by
  refine .bind_nil .peek? fun kind hkind => ?_
  obtain rfl : kind = some (.ident "option") := hkind
  refine .bind_nil (.symbolAhead 1 '=') fun isValue hisValue => ?_
  have hfalse : isValue = false := by
    rw [show isValue = _ from hisValue]
    show ((Setting.nameKinds s.name ++ _ ++ rest)[0]? == some (.symbol '=')) = false
    rw [Setting.nameKinds]
    split <;> rfl
  rw [hfalse, if_pos ⟨rfl, rfl⟩]
  refine .bind_all (Setting.recovers_readStatement h) fun setting hsetting => .pure ?_
  simp only [Sum.map_inl, Body.unplaced, List.map_append, List.map_singleton, hsetting]

/-- Any name in front of `=` is that of a value. -/
theorem recovers_bodyStep_value {v : EnumValue} (h : v.Printable) :
    Recovers (Sum.map Body.unplaced (Body.unplaced ∘ Prod.fst)) v.kinds rest
      (.inl { body.unplaced with values := body.unplaced.values ++ [v.unplaced] })
      (bodyStep source body) := by
  refine .bind_nil .peek? fun kind hkind => ?_
  obtain rfl : kind = some (.ident v.name) := hkind
  refine .bind_nil (.symbolAhead 1 '=') fun isValue hisValue => ?_
  have hvalue : ∀ p : Prop, ¬ (p ∧ isValue = false) := by
    rw [show isValue = true from hisValue]
    exact fun _ hp => Bool.false_ne_true hp.2.symm
  rw [if_neg (hvalue _), if_neg (hvalue _)]
  refine .bind_all (EnumValue.recovers_read h) fun value hv => .pure ?_
  simp only [Sum.map_inl, Body.unplaced, List.map_append, List.map_singleton, hv]

/-- The brace that closes an enum. -/
theorem recovers_bodyStep_close :
    Recovers (Sum.map Body.unplaced (Body.unplaced ∘ Prod.fst)) [.symbol '\x7d'] rest (.inr body.unplaced)
      (bodyStep source body) := by
  refine .bind_nil .peek? fun kind hkind => ?_
  obtain rfl : kind = some (.symbol '\x7d') := hkind
  exact .bind_cons (.next _ _) fun closing _ => .pure rfl

/-- The options, the values and the closing brace of an enum. -/
theorem recovers_body {e : EnumDef} (h : e.Printable) :
    Recovers (Body.unplaced ∘ Prod.fst)
      (e.settings.flatMap Setting.statement ++ (e.values.flatMap EnumValue.kinds ++ [.symbol '\x7d'])) rest
      ⟨e.settings.map Setting.unplaced, e.values.map EnumValue.unplaced⟩
      (iterate (bodyStep source) (.of_takes (takes_bodyStep source)) {}) := by
  refine .gather Body.unplaced Setting.unplaced (fun ss => ⟨ss, []⟩) (fun s hs ss body ks hbody hnext => ?_)
    [] rfl fun body hbody => ?_
  · refine .iterate_next Body.unplaced (recovers_bodyStep_setting (h.settings s hs)) fun body' hbody' => ?_
    refine hnext body' ?_
    rw [hbody', hbody]
  refine .gather Body.unplaced EnumValue.unplaced (fun vs => ⟨[] ++ e.settings.map Setting.unplaced, vs⟩)
    (fun v hv vs body ks hbody hnext => ?_) [] hbody fun body hbody => ?_
  · refine .iterate_next Body.unplaced (recovers_bodyStep_value (h.values v hv)) fun body' hbody' => ?_
    refine hnext body' ?_
    rw [hbody', hbody]
  have hall : (⟨e.settings.map Setting.unplaced, e.values.map EnumValue.unplaced⟩ : Body) = body.unplaced :=
    hbody.symm
  rw [hall]
  exact .iterate_last Body.unplaced recovers_bodyStep_close

/-- **An enum is read back, after its keyword.** -/
theorem recovers_read {e : EnumDef} (h : e.Printable) (keyword : Token) :
    Recovers unplaced (e.kinds.drop 1) rest e.unplaced (read source keyword) := by
  refine .bind_cons (.name _ e.name) fun name hname => ?_
  refine .bind_cons (.symbol '\x7b') fun opening _ => ?_
  refine .bind_nil .dropHeld fun _ _ => ?_
  refine .bind_all (recovers_body h) fun body hbody => ?_
  refine .bind_nil .takeHeld fun dangling hdangling => .pure ?_
  have hnil := h.dangling
  have hnone := h.storage
  obtain ⟨ename, position, ekeyword, eopening, closing, settings, values, edangling, storage⟩ := e
  obtain rfl : name.1 = ename := hname
  obtain rfl : dangling = [] := hdangling
  obtain rfl : edangling = [] := hnil
  obtain rfl : storage = none := hnone
  obtain ⟨hsettings, hvalues⟩ := Body.mk.inj hbody
  simp only [unplaced, hsettings, hvalues]

end EnumDef

end FlagSchema
