import FlagSchema.Lowering.Schema
import FlagSchema.Proofs.Schemas

/-!
# What lowering does

Lowering makes its edits in two passes over the schema, while the text is read once from its start to its
end. Both account for the same enums and fields, so the edits are those of the pieces of the text.

* **`Schema.lower_inv`**: what lowering gives for a schema.
* **`Schema.edits_flagsChange`**: its edits are those in the account of the schema.
* **`Schema.recast_parse`**: a source is made of pieces that have the account of its schema.
* **`exists_pieces`**: so the new text is made of their new words.
* **`exists_parse`**: so it is read as the new schema.
-/

namespace FlagSchema

open Token Reader Piece

-- ── Results ──────────────────────────────────────────────────────────────────────

theorem exists_of_isOk {ε α : Type} {x : Except ε α} (h : x.isOk = true) : ∃ a, x = .ok a := by
  cases x with
  | error e => cases h
  | ok a => exact ⟨a, rfl⟩

theorem exists_of_toOption_map {ε α β : Type} {x : Except ε α} {f : α → β} {b : β}
    (h : x.toOption.map f = some b) : ∃ a, x = .ok a ∧ f a = b := by
  cases x with
  | error e => cases h
  | ok a => exact ⟨a, rfl, Option.some.inj h⟩

/-- Two computations in a row have a result if both have one. -/
theorem Traced.bind_eq_ok {ε α β : Type} {t : Traced ε α} {f : α → Traced ε β} {b : β} :
    (t >>= f).result = .ok b ↔ ∃ a, t.result = .ok a ∧ (f a).result = .ok b := by
  rw [result_bind]
  cases t.result with
  | error e => exact ⟨nofun, nofun⟩
  | ok a => exact ⟨fun h => ⟨a, rfl, h⟩, fun ⟨_, ha, h⟩ => by cases ha; exact h⟩

/-- A computation for each element of a list gives a result for each. -/
theorem Traced.forall₂_of_each {ε α β : Type} {f : α → Traced ε β} {as : List α} {bs : List β}
    (h : (each f as).result = .ok bs) : List.Forall₂ (fun a b => (f a).result = .ok b) as bs := by
  induction as generalizing bs with
  | nil => cases h; exact .nil
  | cons a as ih =>
      obtain ⟨b, hb, h⟩ := bind_eq_ok.mp h
      obtain ⟨others, hothers, h⟩ := bind_eq_ok.mp h
      cases h
      exact .cons hb (ih hothers)

/-- What a list is related to element by element has a partner for each element. -/
theorem exists_right_of_forall₂ {α β : Type} {R : α → β → Prop} {as : List α} {bs : List β}
    (h : List.Forall₂ R as bs) {a : α} (ha : a ∈ as) : ∃ b ∈ bs, R a b := by
  induction h with
  | nil => cases ha
  | cons hab _ ih =>
      rcases List.mem_cons.mp ha with rfl | ha
      · exact ⟨_, List.mem_cons_self .., hab⟩
      · obtain ⟨b, hb, hab⟩ := ih ha
        exact ⟨b, List.mem_cons_of_mem _ hb, hab⟩

theorem exists_left_of_forall₂ {α β : Type} {R : α → β → Prop} {as : List α} {bs : List β}
    (h : List.Forall₂ R as bs) {b : β} (hb : b ∈ bs) : ∃ a ∈ as, R a b :=
  exists_right_of_forall₂ h.flip hb

-- ── Edits ────────────────────────────────────────────────────────────────────────

namespace Schema

variable {source : List Char}

/-- A marked enum asks for its new body. -/
theorem edit_of_makeFlags {scope : String} {e : EnumDef} {y : FlagSet × Edit}
    (h : (e.makeFlags source scope).result = .ok y) : y.2 = e.bodyEdit source := by
  obtain ⟨width, -, h⟩ := Traced.bind_eq_ok.mp h
  cases h
  rfl

/-- A field whose type is a set of flags asks for its new type, and for the number of its default. -/
theorem edits_of_retype {sets : List FlagSet} {message : String} {type : FlagTypeRef} {f : Field}
    {y : RetypedField × List Edit} (h : (f.retype sets message type).result = .ok y) :
    ∃ number, f.defaultNumber sets message type = .ok number ∧ y.2 = f.retypeEdits type number := by
  obtain ⟨number, hnumber, h⟩ := Traced.bind_eq_ok.mp h
  cases h
  exact ⟨number, hnumber, rfl⟩

/-- The edits of the fields of a schema whose type is a set of flags, given the numbers of their defaults. -/
def retypings (fields : List (String × Field × FlagTypeRef)) (numbers : List (Option UInt64)) :
    List Edit :=
  (List.zipWith (fun x number => x.2.1.retypeEdits x.2.2 number) fields numbers).flatten

theorem edits_of_enums {xs : List (String × EnumDef)} {ys : List (FlagSet × Edit)}
    (h : List.Forall₂ (fun x y => (x.2.makeFlags source x.1).result = .ok y) xs ys) :
    ys.map Prod.snd = xs.map fun x => x.2.bodyEdit source := by
  induction h with
  | nil => rfl
  | cons hxy _ ih => rw [List.map_cons, List.map_cons, ih, edit_of_makeFlags hxy]

theorem edits_of_fields {sets : List FlagSet} {xs : List (String × Field × FlagTypeRef)}
    {ys : List (RetypedField × List Edit)}
    (h : List.Forall₂ (fun x y => (x.2.1.retype sets x.1 x.2.2).result = .ok y) xs ys) :
    ∃ numbers,
      List.Forall₂ (fun x number => x.2.1.defaultNumber sets x.1 x.2.2 = .ok number) xs numbers ∧
        (ys.map Prod.snd).flatten = retypings xs numbers := by
  induction h with
  | nil => exact ⟨[], .nil, rfl⟩
  | cons hxy _ ih =>
      obtain ⟨number, hnumber, hy⟩ := edits_of_retype hxy
      obtain ⟨numbers, hnumbers, hys⟩ := ih
      refine ⟨number :: numbers, .cons hnumber hnumbers, ?_⟩
      rw [List.map_cons, List.flatten_cons, hy, hys]
      rfl

/-- **What lowering gives for a schema.** Its edits are those of the marked enums, then those of the fields
    whose type is one of them. -/
theorem lower_inv {s : Schema} {low : Lowered} (h : (s.lower source).result = .ok low) :
    low.text = String.ofList (Edit.apply source low.edits) ∧
      low.schema = (s.mapEnums EnumDef.asFlags).mapFields
        (Field.asFlags (Symbols.ofSchema (s.mapEnums EnumDef.asFlags)) low.report.flagSets) ∧
      low.report.package = s.package ∧ ∃ numbers,
        List.Forall₂ (fun x number => x.2.1.defaultNumber low.report.flagSets x.1 x.2.2 = .ok number)
          ((s.mapEnums EnumDef.asFlags).flagFields (Symbols.ofSchema (s.mapEnums EnumDef.asFlags)))
          numbers ∧
        low.edits = s.markedEnums.map (fun x => x.2.bodyEdit source) ++
          retypings ((s.mapEnums EnumDef.asFlags).flagFields
            (Symbols.ofSchema (s.mapEnums EnumDef.asFlags))) numbers := by
  obtain ⟨enums, henums, h⟩ := Traced.bind_eq_ok.mp h
  obtain ⟨fields, hfields, h⟩ := Traced.bind_eq_ok.mp h
  cases h
  obtain ⟨numbers, hnumbers, hretypings⟩ := edits_of_fields (Traced.forall₂_of_each hfields)
  refine ⟨rfl, rfl, rfl, numbers, hnumbers, ?_⟩
  rw [edits_of_enums (Traced.forall₂_of_each henums), hretypings]

-- ── Accounts ─────────────────────────────────────────────────────────────────────

variable {symbols : Symbols} {sets : List FlagSet}

/-- The account of a schema is that of its enums and fields. -/
theorem flagsChange_eq (s : Schema) :
    s.flagsChange symbols sets source s.scope = (s.enumsIn.map fun x => x.2.flagsChange source).sum +
      (s.fieldsIn.map fun x => x.2.flagsChange source symbols sets x.1).sum := by
  rw [flagsChange, Message.sum_flagsChange, enumsIn, fieldsIn, List.map_append, List.sum_append,
    List.map_map, ← add_assoc]
  rfl

/-- The edits of enums are those of the marked ones. -/
theorem edits_enums (xs : List (String × EnumDef)) :
    Change.edits (xs.map fun x => x.2.flagsChange source).sum
      = ((xs.filter fun x => x.2.marksFlags).map fun x => x.2.bodyEdit source : List Edit) := by
  induction xs with
  | nil => rfl
  | cons x xs ih =>
      rw [List.map_cons, List.sum_cons, Change.edits_add, ih, EnumDef.flagsChange, List.filter_cons]
      split
      · rw [List.map_cons, ← Multiset.cons_coe, ← Multiset.singleton_add]
      · exact zero_add _

/-- The edits of fields are those of the fields whose type is a set of flags. -/
theorem edits_fields {xs : List (String × Field)} {numbers : List (Option UInt64)}
    (h : List.Forall₂ (fun x number => x.2.1.defaultNumber sets x.1 x.2.2 = .ok number)
      (xs.filterMap fun (message, f) => (f.flagType? symbols message).map fun type => (message, f, type))
      numbers) :
    Change.edits (xs.map fun x => x.2.flagsChange source symbols sets x.1).sum
      = (retypings (xs.filterMap fun (message, f) =>
          (f.flagType? symbols message).map fun type => (message, f, type)) numbers : List Edit) := by
  induction xs generalizing numbers with
  | nil => cases h; rfl
  | cons x xs ih =>
      obtain ⟨message, f⟩ := x
      rw [List.map_cons, List.sum_cons, Change.edits_add]
      cases htype : f.flagType? symbols message with
      | none =>
          rw [List.filterMap_cons] at h ⊢
          simp only [htype, Option.map_none] at h ⊢
          rw [ih h, Field.flagsChange, htype]
          exact zero_add _
      | some type =>
          rw [List.filterMap_cons] at h ⊢
          simp only [htype, Option.map_some] at h ⊢
          cases h with
          | cons hnumber hnumbers =>
              rw [ih hnumbers]
              simp only [Field.flagsChange, htype, hnumber]
              rw [Field.edits_retypeChange, Multiset.coe_add]
              rfl

/-- **The edits of lowering are those in the account of the schema.** -/
theorem edits_flagsChange {s : Schema} {low : Lowered} (h : (s.lower source).result = .ok low) :
    (s.flagsChange (Symbols.ofSchema (s.mapEnums EnumDef.asFlags)) low.report.flagSets source
      s.scope).edits = low.edits := by
  obtain ⟨-, -, -, numbers, hnumbers, hedits⟩ := lower_inv h
  rw [flagFields, fieldsIn_mapEnums] at hnumbers hedits
  rw [flagsChange_eq, Change.edits_add, edits_enums, edits_fields hnumbers, hedits, ← Multiset.coe_add]
  rfl

-- ── Schemas read again ───────────────────────────────────────────────────────────

/-- A schema that is what lowering makes of another is the lowered one, places and comments apart. -/
theorem IsLowered.bare_eq {s g : Schema} (h : s.IsLowered symbols sets s.scope g) :
    g.bare = ((s.mapEnums EnumDef.asFlags).mapFields (Field.asFlags symbols sets)).bare := by
  obtain ⟨hedition, hpackage, himports, hsettings, hmessages, henums⟩ := h
  rw [bare, bare, hedition, hpackage, himports, hsettings, hmessages, henums, mapFields, mapEnums,
    Message.mapAllFields_eq, Message.mapAllEnums_eq, List.map_map, List.map_map, List.map_map]
  rfl

/-- Words that are a source are what its tokens hold. -/
theorem holds_ofTokens {ws : List Word} {tail : List Char} (h : Reads tail ws)
    (hsource : source = textOf ws ++ tail) : (Stream.ofTokens (placed {} ws)).Holds source {} ws :=
  ⟨lies_start hsource h, Stream.listing_ofTokens _⟩

/-- A source that is read is made of words. -/
theorem parse_inv {source : String} {s : Schema} (h : parse source = .ok s) :
    ∃ ws tail s', source.toList = textOf ws ++ tail ∧ tail.all Text.isBlank = true ∧ Reads tail ws ∧
      iterate (step source.toList) (proceeds_step source.toList) {} (Stream.ofTokens (placed {} ws))
        = .ok (s, s') := by
  rw [parse] at h
  split at h
  · cases h
  · next tokens htokens =>
      obtain ⟨ws, tail, hsource, htail, hreads, rfl⟩ := exists_words_of_scan htokens
      rw [ofTokens] at h
      cases hrun : iterate (step source.toList) (proceeds_step source.toList) {}
          (Stream.ofTokens (placed {} ws)) with
      | error e => rw [hrun] at h; cases h
      | ok x =>
          rw [hrun] at h
          cases h
          exact ⟨ws, tail, _, hsource, htail, hreads, hrun⟩

/-- A text of words is read as the statements up to its end. -/
theorem parse_of_rereads {W : List Word} {tail : List Char} {P : Schema → Prop} (h : Reads tail W)
    (ht : tail.all Text.isBlank = true)
    (hW : ∀ source, RereadsAll source (iterate (step source) (proceeds_step source) {}) W P) :
    ∃ g, parse (String.ofList (textOf W ++ tail)) = .ok g ∧ P g := by
  have hs := holds_ofTokens h rfl
  obtain ⟨g, t', hg, hP⟩ := hW _ hs.lies hs.tokens
  refine ⟨g, ?_, hP⟩
  rw [parse, tokenize, String.toList_ofList, scan_words _ h ht]
  dsimp only
  rw [ofTokens, hg]
  rfl

variable (symbols sets)

/-- **A source is made of pieces that have the account of its schema.** The new words are read as what
    lowering makes of it. -/
theorem recast_parse {source : String} {s : Schema} (h : parse source = .ok s) (scope : String) :
    ∃ ps tail, source.toList = textOf (olds ps) ++ tail ∧ tail.all Text.isBlank = true ∧
      Reads tail (olds ps) ∧ Recast {} ps (s.flagsChange symbols sets source.toList scope) ∧
      ∀ source', RereadsAll source' (iterate (step source') (proceeds_step source') {}) (news ps)
        (s.IsLowered symbols sets scope) := by
  obtain ⟨ws, tail, s', hsource, htail, hreads, hrun⟩ := parse_inv h
  obtain ⟨c, ⟨hitems, hc⟩, ps, ws', rfl, hs', hps, hagain⟩ :=
    recast_iterate symbols sets scope (holds_ofTokens hreads hsource) hrun
  -- What is left behind the last statement are comments, which stay.
  have hcomments := hs'.comments_of_nil hitems
  have holds : olds (ps ++ [.keep ws']) = olds ps ++ ws' := by
    rw [olds_append, olds_cons, olds_nil, old, List.append_nil]
  have hnews : news (ps ++ [.keep ws']) = news ps ++ ws' := by
    rw [news_append, news_cons, news_nil, new, List.append_nil]
  refine ⟨ps ++ [.keep ws'], tail, ?_, htail, ?_, ?_, ?_⟩
  · rw [holds]; exact hsource
  · rw [holds]; exact hreads
  · have hempty : ({} : Schema).flagsChange symbols sets source.toList scope = 0 := rfl
    rw [hc, hempty, zero_add, ← add_zero c]
    exact hps.append (.keep _ (.of_comments hcomments))
  · intro source' q t hq ht
    rw [hnews] at hq ht
    rw [placed_append, significant_append, significant_placed_comments hcomments, List.append_nil] at ht
    exact hagain source' {} ⟨rfl, rfl, rfl, rfl, rfl, rfl⟩ hq.left ht

end Schema

-- ── Sources ──────────────────────────────────────────────────────────────────────

/-- What the characters of a source are read as. -/
def Schema.parseChars (source : List Char) : Except SchemaError Schema :=
  ((scan {} source).mapError fun x => .text x.1 x.2) >>= Schema.ofTokens source

theorem Schema.parse_eq (source : String) : parse source = parseChars source.toList := by
  rw [parse, tokenize, parseChars]
  cases scan {} source.toList <;> rfl

/-- What the characters of a source are lowered to. -/
def lowerChars (source : List Char) : Traced SchemaError Lowered :=
  Traced.lift (Schema.parseChars source) >>= Schema.lower source

/-- A source counts for its characters alone. On these, lowering evaluates fast: the bytes that a text is
    made of need not be decoded. -/
theorem lower_eq (source : String) : lower source = lowerChars source.toList := by
  rw [lowerChars, ← Schema.parse_eq]
  rfl

/-- A source that is read is lowered as its schema is. -/
theorem result_lower {source : String} {s : Schema} (h : Schema.parse source = .ok s) :
    (lower source).result = (s.lower source.toList).result := by
  rw [lower, Traced.result_bind, Traced.lift, h]
  rfl

/-- A source that is lowered has been read, and its schema is lowered. -/
theorem lower_inv {source : String} {low : Lowered} (h : (lower source).result = .ok low) :
    ∃ s, Schema.parse source = .ok s ∧ (s.lower source.toList).result = .ok low := by
  exact Traced.bind_eq_ok.mp h

/-- **The new text is made of the new words of pieces** that have the account of the schema, and the edits
    lead to it from the old text. -/
theorem exists_pieces {source : String} {low : Lowered} (h : (lower source).result = .ok low) :
    ∃ s ps tail, Schema.parse source = .ok s ∧ (s.lower source.toList).result = .ok low ∧
      source.toList = textOf (olds ps) ++ tail ∧ low.text.toList = textOf (news ps) ++ tail ∧
      tail.all Text.isBlank = true ∧ Reads tail (olds ps) ∧ Reads tail (news ps) ∧
      Recast {} ps (s.flagsChange (Symbols.ofSchema (s.mapEnums EnumDef.asFlags)) low.report.flagSets
        source.toList s.scope) ∧
      low.edits.Perm (edits {} ps) ∧ Edit.Windows 0 (edits {} ps) source.toList low.text.toList ∧
      ∀ source', RereadsAll source' (iterate (Schema.step source') (Schema.proceeds_step source') {})
        (news ps) fun g => g.bare = low.schema.bare := by
  obtain ⟨s, hparse, hlow⟩ := lower_inv h
  obtain ⟨htext, hschema, -⟩ := Schema.lower_inv hlow
  obtain ⟨ps, tail, hsource, htail, hreads, hps, hagain⟩ := Schema.recast_parse
    (Symbols.ofSchema (s.mapEnums EnumDef.asFlags)) low.report.flagSets hparse s.scope
  have hfits := hps.fits none nofun
  have hperm : low.edits.Perm (edits {} ps) := by
    rw [← Multiset.coe_eq_coe, hps.edits, Schema.edits_flagsChange hlow]
  have hwindows := hfits.windows hreads {}
  rw [← hsource] at hwindows
  have hnew : low.text.toList = textOf (news ps) ++ tail := by
    rw [htext, String.toList_ofList]
    exact hwindows.apply hperm
  rw [← hnew] at hwindows
  refine ⟨s, ps, tail, hparse, hlow, hsource, hnew, htail, hreads, (hfits.reads hreads).1, hps, hperm,
    hwindows, fun source' q t hq ht => ?_⟩
  obtain ⟨g, t', hg, hlowered⟩ := hagain source' hq ht
  refine ⟨g, t', hg, ?_⟩
  rw [hschema]
  exact hlowered.bare_eq

/-- The new text is read, and it is read as the new schema, places, comments and the traces of lowering
    apart. -/
theorem exists_parse {source : String} {low : Lowered} (h : (lower source).result = .ok low) :
    ∃ g, Schema.parse low.text = .ok g ∧ g.bare = low.schema.bare := by
  obtain ⟨s, ps, tail, -, -, -, hnew, htail, -, hreads, -, -, -, hagain⟩ := exists_pieces h
  obtain ⟨g, hg, hbare⟩ := Schema.parse_of_rereads hreads htail hagain
  refine ⟨g, ?_, hbare⟩
  rw [← hg, ← hnew, String.ofList_toList]

end FlagSchema
