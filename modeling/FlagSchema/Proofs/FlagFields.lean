import FlagSchema.Lowering.Schema
import FlagSchema.Proofs.Retyping

/-!
# Fields that become integers

A field whose type is a set of flags is read as an integer, any other as itself, also inside a choice. The
reader of a message tells a field by its first word: no field has one that starts something else.

* **`Field.flagsChange`**: the account of a field.
* **`Field.recast_asFlags`**: a field is read as the field that lowering makes of it.
* **`Message.recast_readOneof`**: so are the fields of a choice.
-/

namespace FlagSchema

open Token Reader Piece

variable {source : List Char} {p : Place}

-- ── First words ──────────────────────────────────────────────────────────────────

/-- A reader takes certain words behind which names are told apart by their first one. -/
def RereadsFrom {α : Type} (source : List Char) (ok : String → Prop) (r : Reader α) (W : List Word)
    (P : α → Prop) : Prop :=
  ∀ ⦃q t us⦄, Lies source q W → t.tokens = significant (placed q W) ++ us →
    ∃ word a t', t.kindAt? 0 = some (.ident word) ∧ ok word ∧ r t = .ok (a, t') ∧ t'.tokens = us ∧ P a

/-- A reader that looks at the next token goes on as for any word of that sort. -/
theorem RereadsFrom.peek? {α β : Type} {ok : String → Prop} {r : Reader α} {W : List Word} {P : α → Prop}
    {Q : β → Prop} {f : Option Kind → Reader β} {g : α → β} (h : RereadsFrom source ok r W P)
    (hf : ∀ word, ok word → f (some (.ident word)) = r >>= fun a => pure (g a)) (hg : ∀ a, P a → Q (g a)) :
    Rereads source (Reader.peek? >>= f) W Q := by
  intro q t us hq ht
  obtain ⟨word, a, t', hkind, hword, hr, ht', ha⟩ := h hq ht
  have hpeek : Reader.peek? t = .ok (some (.ident word), t) := by
    rw [← hkind]
    rfl
  refine ⟨g a, t', (bind_ok hpeek).trans ?_, ht', hg a ha⟩
  rw [hf word hword]
  exact bind_ok hr

namespace Field

/-- A word that starts a field on its own account: a label, the word for maps or a scalar type. -/
def Starts (word : String) : Prop :=
  (Label.ofName? word).isSome ∨ word = "map" ∨ (Scalar.ofKeyword? word).isSome

/-- The first word of a field is one of these or its type. -/
theorem first_word {oneof : Option String} {s s' : Stream} {f : Field}
    (h : read source oneof s = .ok (f, s')) :
    ∃ word, s.kindAt? 0 = some (.ident word) ∧
      ((Label.ofName? word).isSome ∨ word = "map" ∨ f.type = .single (.ofName word)) := by
  rw [read_eq] at h
  obtain ⟨⟨label, type, token⟩, s₁, h1, hrest⟩ := exists_of_bind h
  obtain ⟨⟨t, span⟩, s₂, h2, hrest⟩ := exists_of_bind hrest
  obtain ⟨x, s₃, -, hrest⟩ := exists_of_bind hrest
  obtain ⟨number, s₄, -, hrest⟩ := exists_of_bind hrest
  obtain ⟨settings, s₅, -, hrest⟩ := exists_of_bind hrest
  obtain ⟨semicolon, s₆, -, hrest⟩ := exists_of_bind hrest
  cases hrest
  obtain ⟨⟨first, firstToken⟩, s₇, h3, h4⟩ := exists_of_bind h1
  refine ⟨first, (kind_of_name h3).1, ?_⟩
  cases hlabel : Label.ofName? first with
  | some l => exact .inl rfl
  | none =>
      simp only [hlabel] at h4
      cases h4
      refine .inr ?_
      unfold readType at h2
      split at h2
      · cases h2
      · obtain ⟨isMap, s₈, -, h5⟩ := exists_of_bind h2
        split at h5
        · next hmap => exact .inl hmap.1
        · cases h5
          exact .inr rfl

theorem closes_read {done : Field → Prop} (oneof : Option String) :
    Closes source done (read source oneof) := by
  rw [read_eq]
  exact .bind_right (passes_readHead _) fun _ => .bind_right (passes_readType _ _) fun _ =>
    .bind_right passes_readNamed fun _ => .bind_right passes_readNumber fun _ =>
      .bind_right Setting.passes_readBracketed fun _ => .bind_pure (.symbol (by decide) (by decide))

-- ── Fields as integers ───────────────────────────────────────────────────────────

/-- The account of a field of a message with a full name. -/
def flagsChange (source : List Char) (symbols : Symbols) (sets : List FlagSet) (message : String)
    (f : Field) : Change :=
  match f.flagType? symbols message with
  | none      => 0
  | some type =>
    match f.defaultNumber sets message type with
    | .ok default => f.retypeChange source type default
    | .error _    => 0

/-- A default with a number names a flag. -/
theorem ident_of_defaultNumber {sets : List FlagSet} {message : String} {type : FlagTypeRef} {f : Field}
    {default : Option UInt64} (h : f.defaultNumber sets message type = .ok default) :
    ∀ n d, default = some n → f.default? = some d → ∃ name, d.value = .ident name := by
  rintro n d rfl hd
  rw [defaultNumber, hd] at h
  dsimp only at h
  split at h
  · next m hm =>
      unfold Constant.flagNumber? at hm
      split at hm
      · next name hname => exact ⟨name, hname⟩
      · cases hm
  · cases h

/-- The first word of a retyped field starts a field on its own account. -/
theorem starts_of_retyped {word : String} {f g : Field} {type : FlagTypeRef} {default : Option UInt64}
    (hbare : g.bare = (f.retyped type default).bare)
    (h : (Label.ofName? word).isSome ∨ word = "map" ∨ g.type = .single (.ofName word)) : Starts word := by
  refine h.imp_right (.imp_right fun htype => ?_)
  have hg : g.type = f.type.withTarget (.scalar type.width) := congrArg Field.type hbare
  rw [htype] at hg
  cases hf : f.type with
  | map key target => rw [hf] at hg; cases hg
  | single target =>
      rw [hf] at hg
      have hname : TypeRef.ofName word = .scalar type.width := FieldType.single.inj hg
      unfold TypeRef.ofName at hname
      split at hname
      · next s hs => rw [hs]; rfl
      · cases hname

/-- **A field is read as the field that lowering makes of it.** -/
theorem recast_asFlags {ok : String → Prop} (hok : ∀ word, Starts word → ok word) {oneof : Option String}
    {word : String} {s s' : Stream} {ws : List Word} {f : Field}
    (hkind : s.kindAt? 0 = some (.ident word)) (hword : ok word) (hs : s.Holds source p ws)
    (h : read source oneof s = .ok (f, s')) (symbols : Symbols) (sets : List FlagSet) (message : String) :
    Recasts source p ws s' (f.flagsChange source symbols sets message) fun W => ∀ source',
      RereadsFrom source' ok (read source' oneof) W fun g =>
        g.bare = (f.asFlags symbols sets message).bare := by
  have hstays : Recasts source p ws s' 0 fun W => ∀ source',
      RereadsFrom source' ok (read source' oneof) W fun g => g.bare = f.bare := by
    refine (Recasts.of_closes_from hkind (takes_read ..) (closes_read _) (fun source' q => replays_read oneof)
      hs h).mono ?_
    rintro W ⟨hstarts, hagain⟩ source' q t us hq ht
    obtain ⟨g, t', hg, ht', hbare⟩ := hagain source' hq ht
    exact ⟨word, g, t', hstarts.kindAt? rfl ht, hword, hg, ht', Eq.symm hbare⟩
  cases htype : f.flagType? symbols message with
  | none =>
      simp only [flagsChange, asFlags, htype]
      exact hstays
  | some type =>
      cases hdefault : f.defaultNumber sets message type with
      | error e =>
          simp only [flagsChange, asFlags, htype, hdefault]
          exact hstays
      | ok default =>
          simp only [flagsChange, asFlags, htype, hdefault]
          refine (recast_read hs h type default (ident_of_defaultNumber hdefault)).mono ?_
          intro W hW source' q t us hq ht
          obtain ⟨g, t', hg, ht', hbare⟩ := hW source' hq ht
          obtain ⟨word', hkind', hfirst⟩ := first_word hg
          exact ⟨word', g, t', hkind', hok _ (starts_of_retyped hbare hfirst), hg, ht', hbare⟩

end Field

-- ── Choices ──────────────────────────────────────────────────────────────────────

theorem Setting.ends_readStatement {done : Setting → Prop} :
    EndsIn source (· = .symbol ';') done (readStatement source) := by
  intro s p ws x s' hs h _
  obtain ⟨cs, w, us, v, ts, ws', hws, -, -, hv, hs', -, hts, -⟩ := readStatement_inv hs h
  exact ⟨_, ws', hws, hs', cs ++ w :: us, v, ts, by simp, hv, hts⟩

theorem Setting.closes_readStatement {done : Setting → Prop} :
    Closes source done (readStatement source) :=
  ends_readStatement.closes (by decide) (by decide)

namespace Message

/-- The accounts of several fields. -/
def fieldsChange (source : List Char) (symbols : Symbols) (sets : List FlagSet) (message : String)
    (fs : List Field) : Change :=
  (fs.map (Field.flagsChange source symbols sets message)).sum

theorem fieldsChange_append (symbols : Symbols) (sets : List FlagSet) (message : String)
    (fs gs : List Field) : fieldsChange source symbols sets message (fs ++ gs)
      = fieldsChange source symbols sets message fs + fieldsChange source symbols sets message gs := by
  rw [fieldsChange, List.map_append, List.sum_append]
  rfl

/-- Fields are those that lowering makes of others. -/
def LoweredFields (symbols : Symbols) (sets : List FlagSet) (message : String) (fs gs : List Field) :
    Prop :=
  gs.map Field.bare = (fs.map (Field.asFlags symbols sets message)).map Field.bare

theorem LoweredFields.append {symbols : Symbols} {sets : List FlagSet} {message : String}
    {fs fs' gs gs' : List Field} (h : LoweredFields symbols sets message fs gs)
    (h' : LoweredFields symbols sets message fs' gs') :
    LoweredFields symbols sets message (fs ++ fs') (gs ++ gs') := by
  rw [LoweredFields, List.map_append, List.map_append, List.map_append, h, h']

/-- The name of a choice and its opening brace. -/
def oneofHead : Reader String := do
  let (name, _) ← Reader.name .oneofName
  let _ ← symbol '\x7b'
  pure name

/-- How a choice is read. -/
theorem readOneof_eq (source : List Char) :
    readOneof source = oneofHead >>= fun name =>
      iterate (oneofStep source name) (.of_takes (takes_oneofStep source name)) [] >>= fun fields =>
        pure (.oneof name fields) := by
  simp only [readOneof, oneofHead, bind_assoc, pure_bind]

theorem closes_oneofHead {done : String → Prop} : Closes source done oneofHead :=
  .bind_right (.name _) fun _ => .bind_pure (.symbol (by decide) (by decide))

theorem replays_oneofHead {source' : List Char} {q : Place} :
    Replays source source' p q 0 (Outcome.value Eq) oneofHead oneofHead :=
  .nameThen _ _ fun _ _ _ _ _ => rfl

variable (symbols : Symbols) (sets : List FlagSet) (message : String)

/-- A statement of a choice, or its closing brace. -/
theorem recast_oneofStep {name : String} {fs : List Field} {s s' : Stream} {ws : List Word}
    {x : List Field ⊕ List Field} (hs : s.Holds source p ws)
    (h : oneofStep source name fs s = .ok (x, s')) :
    ∃ c, Sum.elim (fieldsChange source symbols sets message) (fieldsChange source symbols sets message) x
        = fieldsChange source symbols sets message fs + c ∧
      Recasts source p ws s' c fun W => ∀ source' gs, LoweredFields symbols sets message fs gs →
        Rereads source' (oneofStep source' name gs) W
          (Sum.LiftRel (LoweredFields symbols sets message) (LoweredFields symbols sets message) x) := by
  obtain ⟨kind, s₁, h1, hstep⟩ := exists_of_bind h
  obtain ⟨rfl, hkind⟩ := eq_of_peek? h1
  split at hstep
  · next c =>
      split at hstep
      · next hc =>
          obtain ⟨t, s₂, h2, h3⟩ := exists_of_bind hstep
          cases h3
          have hparts : (Kind.symbol c).Parts := hc ▸ .inr ⟨_, rfl, by decide, by decide⟩
          refine ⟨0, (add_zero _).symm, (Recasts.next hkind hparts hs h2).mono ?_⟩
          rintro W ⟨hstarts, hagain⟩ source' gs hgs
          refine .peek? hstarts rfl ?_
          dsimp only
          rw [if_pos hc]
          exact (hagain source').map fun _ _ => .inr hgs
      · next hbrace =>
          split at hstep
          · next hc =>
              obtain ⟨t, s₂, h2, h3⟩ := exists_of_bind hstep
              cases h3
              have hparts : (Kind.symbol c).Parts := hc ▸ .inr ⟨_, rfl, by decide, by decide⟩
              refine ⟨0, (add_zero _).symm, (Recasts.next hkind hparts hs h2).mono ?_⟩
              rintro W ⟨hstarts, hagain⟩ source' gs hgs
              refine .peek? hstarts rfl ?_
              dsimp only
              rw [if_neg hbrace, if_pos hc]
              exact (hagain source').map fun _ _ => .inl hgs
          · exact absurd hstep (refuse_ne_ok _ _ _)
  · next word =>
      split at hstep
      · next hoption =>
          obtain ⟨y, s₂, h2, h3⟩ := exists_of_bind hstep
          cases h3
          refine ⟨0, (add_zero _).symm, (Recasts.of_closes_from hkind (Setting.takes_readStatement _)
            Setting.closes_readStatement (fun source' q => Setting.replays_readStatement) hs h2).mono ?_⟩
          rintro W ⟨hstarts, hagain⟩ source' gs hgs
          refine .peek? hstarts rfl ?_
          dsimp only
          rw [if_pos hoption]
          exact (hagain source').map fun _ _ => .inl hgs
      · next hoption =>
          obtain ⟨f, s₂, h2, h3⟩ := exists_of_bind hstep
          cases h3
          have hok : ∀ word, Field.Starts word → word ≠ "option" := by
            rintro _ (h | h | h) rfl
            · cases h
            · revert h; decide
            · cases h
          refine ⟨f.flagsChange source symbols sets message, ?_,
            (Field.recast_asFlags hok hkind hoption hs h2 symbols sets message).mono ?_⟩
          · rw [Sum.elim_inl, fieldsChange_append]
            simp only [fieldsChange, List.map_singleton, List.sum_singleton]
          · intro W hagain source' gs hgs
            refine (hagain source').peek? (fun word hword => ?_) (g := fun g => .inl (gs ++ [g])) fun g hg => ?_
            · dsimp only
              rw [if_neg hword]
            · exact .inl (hgs.append (by rw [LoweredFields, List.map_singleton, hg]; rfl))
  · exact absurd hstep (refuse_ne_ok _ _ _)

/-- The fields of a choice up to its closing brace. -/
theorem recast_oneofFields {name : String} {s s' : Stream} {ws : List Word} {fs : List Field}
    (hs : s.Holds source p ws)
    (h : iterate (oneofStep source name) (.of_takes (takes_oneofStep source name)) [] s = .ok (fs, s')) :
    Recasts source p ws s' (fieldsChange source symbols sets message fs) fun W => ∀ source',
      Rereads source' (iterate (oneofStep source' name) (.of_takes (takes_oneofStep source' name)) []) W
        (LoweredFields symbols sets message fs) := by
  obtain ⟨c, hc, hrecasts⟩ :=
    Recasts.iterate (fun hs h => recast_oneofStep symbols sets message hs h) hs h
  have hzero : fieldsChange source symbols sets message [] = 0 := rfl
  rw [hzero, zero_add] at hc
  rw [hc]
  exact hrecasts.mono fun W hW source' => hW source' _ [] rfl

/-- **A choice is read with the fields that lowering makes of its own.** -/
theorem recast_readOneof {s s' : Stream} {ws : List Word} {x : Element} (hs : s.Holds source p ws)
    (h : readOneof source s = .ok (x, s')) :
    ∃ name fs, x = .oneof name fs ∧
      Recasts source p ws s' (fieldsChange source symbols sets message fs) fun W => ∀ source',
        Rereads source' (readOneof source') W fun y =>
          ∃ gs, y = .oneof name gs ∧ LoweredFields symbols sets message fs gs := by
  rw [readOneof_eq] at h
  obtain ⟨name, s₁, h1, hrest⟩ := exists_of_bind h
  obtain ⟨fs, s₂, h2, hrest⟩ := exists_of_bind hrest
  cases hrest
  refine ⟨name, fs, rfl, ?_⟩
  have hhead := Recasts.of_closes closes_oneofHead (fun source' q => replays_oneofHead) hs h1
  rw [← zero_add (fieldsChange source symbols sets message fs)]
  refine (hhead.seq fun p ws hs₁ => recast_oneofFields symbols sets message hs₁ h2).mono ?_
  rintro _ ⟨W₁, W₂, rfl, hW₁, hW₂⟩ source'
  rw [readOneof_eq]
  refine (hW₁ source').bind ?_
  rintro _ rfl
  exact (hW₂ source').map fun gs hgs => ⟨gs, rfl, hgs⟩

end Message

end FlagSchema
