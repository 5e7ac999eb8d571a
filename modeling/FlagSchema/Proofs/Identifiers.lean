import FlagSchema.Proofs.Paths

/-!
# Identifiers in a module

Structures, enums, flag types and modules share the identifiers of the module that they stand in. A structure
has the name of its message as its identifier, the module of its types the same name in snake case, and a few
names get an underscore. Different names of a scope may therefore meet.

* **`PlacedScope.itemNames`**: the names that the identifiers of a module are made of.
* **`Ident.Apart`**: names that have different identifiers.
* **`accessorsOf_idents_nodup`**: the identifiers in every module differ if and only if the names are apart.
* **`accessorsOf_idents_clash`**: they need not, though the definitions of each scope have different names.
-/

namespace FlagSchema

open Declaration

-- ── Names with different identifiers ─────────────────────────────────────────────

namespace Ident

/-- Names that differ, also from those that get an underscore. -/
def Apart (names : List String) : Prop :=
  names.Nodup ∧ ∀ word ∈ unavailable, word ∈ names → word ++ "_" ∉ names

instance (names : List String) : Decidable (Apart names) :=
  inferInstanceAs (Decidable (_ ∧ _))

/-- The text of the identifier of a name. -/
def textOf (name : String) : String :=
  if unavailable.contains name then name ++ "_" else name

theorem text_ofName? {name : String} {i : Ident} (h : ofName? name = some i) : i.text = textOf name := by
  unfold ofName? at h
  unfold textOf
  split at h
  · next hword => rw [if_pos hword]; cases h; rfl
  · next hword =>
      rw [if_neg hword]
      split at h
      · cases h
      · cases h; rfl

theorem texts_areOf {names : List String} {ids : List Ident} (h : AreOf names ids) :
    ids.map text = names.map textOf := by
  induction h with
  | nil => rfl
  | cons hi _ ih => rw [List.map_cons, List.map_cons, ih, text_ofName? hi]

theorem textOf_of_mem {name : String} (h : name ∈ unavailable) : textOf name = name ++ "_" :=
  if_pos (List.contains_iff_mem.mpr h)

theorem textOf_of_notMem {name : String} (h : name ∉ unavailable) : textOf name = name :=
  if_neg fun hmem => h (List.contains_iff_mem.mp hmem)

/-- Two names have one identifier if one of them is the other with an underscore, or they are the same. -/
theorem textOf_inj {a b : String} (h : textOf a = textOf b) :
    a = b ∨ (a ∈ unavailable ∧ b = a ++ "_") ∨ (b ∈ unavailable ∧ a = b ++ "_") := by
  have hwords : ∀ a ∈ unavailable, ∀ b ∈ unavailable, a ++ "_" = b ++ "_" → a = b := by decide
  by_cases ha : a ∈ unavailable <;> by_cases hb : b ∈ unavailable
  · rw [textOf_of_mem ha, textOf_of_mem hb] at h
    exact .inl (hwords a ha b hb h)
  · rw [textOf_of_mem ha, textOf_of_notMem hb] at h
    exact .inr (.inl ⟨ha, h.symm⟩)
  · rw [textOf_of_notMem ha, textOf_of_mem hb] at h
    exact .inr (.inr ⟨hb, h⟩)
  · rw [textOf_of_notMem ha, textOf_of_notMem hb] at h
    exact .inl h

/-- **The identifiers of names differ if and only if the names are apart.** -/
theorem nodup_textOf_iff (names : List String) : (names.map textOf).Nodup ↔ Apart names := by
  constructor
  · intro h
    have hnames := List.Nodup.of_map _ h
    refine ⟨hnames, fun word hword hmem hend => ?_⟩
    have hends : ∀ word ∈ unavailable, word ++ "_" ∉ unavailable ∧ word ≠ word ++ "_" := by decide
    obtain ⟨hplain, hne⟩ := hends word hword
    refine hne ((List.nodup_map_iff_inj_on hnames).mp h word hmem _ hend ?_)
    rw [textOf_of_mem hword, textOf_of_notMem hplain]
  · intro ⟨hnames, hapart⟩
    refine (List.nodup_map_iff_inj_on hnames).mpr fun a ha b hb heq => ?_
    rcases textOf_inj heq with hab | ⟨hword, rfl⟩ | ⟨hword, rfl⟩
    · exact hab
    · exact absurd hb (hapart a hword ha)
    · exact absurd ha (hapart b hword hb)

end Ident

-- ── Names of scopes ──────────────────────────────────────────────────────────────

/-- The names of what is generated for a message in the module of its scope. -/
def Message.itemNames (m : Message) : List String :=
  if m.enums.isEmpty && m.messages.isEmpty then [m.name] else [m.name, snakeCase m.name]

namespace PlacedScope

/-- The names of the definitions of a scope. -/
def definitionNames (sc : PlacedScope) : List String :=
  sc.enums.map EnumDef.name ++ sc.messages.map Message.name

/-- The names of what is generated for the definitions of a scope. -/
def itemNames (sc : PlacedScope) : List String :=
  sc.enums.map EnumDef.name ++ sc.messages.flatMap Message.itemNames

end PlacedScope

namespace Generator

variable {g : Generator} {sc : PlacedScope} {items : List Declaration}

/-- The identifiers of what is generated for a message. -/
theorem areOf_ofMessage {m : Message} {ds : List Declaration}
    (h : (g.ofMessage sc.scope sc.module m).result = .ok ds) :
    Ident.AreOf m.itemNames (ds.map Declaration.ident) := by
  obtain ⟨d, hd, hinner⟩ := ofMessage_inv h
  obtain ⟨hname, -⟩ := definitionOf_inv hd
  have hempty : (m.enums.isEmpty && m.messages.isEmpty) = true ↔ m.enums = [] ∧ m.messages = [] := by
    rw [Bool.and_eq_true, List.isEmpty_iff, List.isEmpty_iff]
  unfold Message.itemNames
  rcases hinner with ⟨henums, hmessages, rfl⟩ | ⟨hsome, ident, body, hident, -, rfl⟩
  · rw [if_pos (hempty.mpr ⟨henums, hmessages⟩)]
    exact .cons hname .nil
  · rw [if_neg fun h => hsome (hempty.mp h)]
    exact .cons hname (.cons hident .nil)

theorem areOf_flatten {ms : List Message} {dss : List (List Declaration)}
    (h : List.Forall₂ (fun m ds => (g.ofMessage sc.scope sc.module m).result = .ok ds) ms dss) :
    Ident.AreOf (ms.flatMap Message.itemNames) (dss.flatten.map Declaration.ident) := by
  induction h with
  | nil => exact .nil
  | cons hds _ ih =>
      rw [List.flatMap_cons, List.flatten_cons, List.map_append]
      exact List.rel_append (areOf_ofMessage hds) ih

/-- **The identifiers of what fills a scope are those of its names.** -/
theorem Fills.areOf (h : g.Fills sc items) : Ident.AreOf sc.itemNames (items.map Declaration.ident) := by
  obtain ⟨eds, dss, heds, hdss, rfl⟩ := h
  have henums : Ident.AreOf (sc.enums.map EnumDef.name) (eds.map Declaration.ident) := by
    rw [Ident.AreOf, List.forall₂_map_left_iff, List.forall₂_map_right_iff]
    exact heds.imp fun e d hd => (enumOrFlagsOf_inv hd).1
  rw [List.map_append]
  exact List.rel_append henums (areOf_flatten hdss)

/-- What fills a scope has different identifiers if and only if the names of the scope are apart. -/
theorem Fills.nodup_iff (h : g.Fills sc items) :
    (items.map fun d => d.ident.text).Nodup ↔ Ident.Apart sc.itemNames := by
  rw [← Ident.nodup_textOf_iff, ← Ident.texts_areOf h.areOf, List.map_map]
  rfl

end Generator

-- ── Names of schemas ─────────────────────────────────────────────────────────────

namespace Message

theorem itemNames_mapEnums (f : EnumDef → EnumDef) (m : Message) : (m.mapEnums f).itemNames = m.itemNames := by
  rw [mapEnums_eq]
  simp only [itemNames, List.isEmpty_map]

theorem itemNames_mapFields (f : String → Field → Field) (scope : String) (m : Message) :
    (m.mapFields f scope).itemNames = m.itemNames := by
  rw [mapFields_eq]
  simp only [itemNames, List.isEmpty_map]

end Message

namespace PlacedScope

variable (scope : String) (module : List String) (enums : List EnumDef) (messages : List Message)

theorem itemNames_mapEnums {f : EnumDef → EnumDef} (hf : ∀ e, (f e).name = e.name) :
    itemNames ⟨scope, module, enums.map f, messages.map (Message.mapEnums f)⟩ =
      itemNames ⟨scope, module, enums, messages⟩ := by
  have hnames : EnumDef.name ∘ f = EnumDef.name := funext hf
  simp only [itemNames, List.map_map, List.flatMap_map, hnames, Message.itemNames_mapEnums]

theorem itemNames_mapFields (f : String → Field → Field) (inner : String) :
    itemNames ⟨scope, module, enums, messages.map (Message.mapFields f inner)⟩ =
      itemNames ⟨scope, module, enums, messages⟩ := by
  simp only [itemNames, List.flatMap_map, Message.itemNames_mapFields]

end PlacedScope

namespace PlacedType

/-- The names of what is generated for the scope of a type. -/
def itemNames? (t : PlacedType) : Option (List String) := t.inner?.map PlacedScope.itemNames

theorem itemNames?_mapEnums {f : EnumDef → EnumDef} (hf : ∀ e, (f e).name = e.name) (t : PlacedType) :
    (t.mapEnums f).itemNames? = t.itemNames? := by
  obtain ⟨scope, module, type⟩ := t
  cases type with
  | enum e => rfl
  | message m =>
      rw [mapEnums, TypeDef.mapEnums, Message.mapEnums_eq]
      exact congrArg some (PlacedScope.itemNames_mapEnums _ _ _ _ hf)

theorem itemNames?_mapFields (f : String → Field → Field) (t : PlacedType) :
    (t.mapFields f).itemNames? = t.itemNames? := by
  obtain ⟨scope, module, type⟩ := t
  cases type with
  | enum e => rfl
  | message m =>
      rw [mapFields, TypeDef.mapFields, Message.mapFields_eq]
      exact congrArg some (PlacedScope.itemNames_mapFields _ _ _ _ f _)

end PlacedType

namespace Schema

/-- The names of what is generated for each scope of a schema. -/
def itemNames (s : Schema) : List (List String) := s.scopes.map PlacedScope.itemNames

theorem itemNames_eq (s : Schema) :
    s.itemNames = s.root.itemNames :: s.typesIn.filterMap PlacedType.itemNames? := by
  rw [itemNames, scopes, PlacedScope.scopes, typesIn_root, List.map_cons, List.map_filterMap]
  rfl

theorem itemNames_mapEnums {f : EnumDef → EnumDef} (hf : ∀ e, (f e).name = e.name) (s : Schema) :
    (s.mapEnums f).itemNames = s.itemNames := by
  have hroot : (s.mapEnums f).root.itemNames = s.root.itemNames := by
    rw [root, mapEnums, Message.mapAllEnums_eq]
    exact PlacedScope.itemNames_mapEnums _ _ _ _ hf
  have htypes : (PlacedType.itemNames? ∘ PlacedType.mapEnums f) = PlacedType.itemNames? :=
    funext (PlacedType.itemNames?_mapEnums hf)
  rw [itemNames_eq, itemNames_eq, hroot, typesIn_mapEnums, List.filterMap_map, htypes]

theorem itemNames_mapFields (f : String → Field → Field) (s : Schema) :
    (s.mapFields f).itemNames = s.itemNames := by
  have hroot : (s.mapFields f).root.itemNames = s.root.itemNames := by
    rw [root, mapFields, Message.mapAllFields_eq]
    exact PlacedScope.itemNames_mapFields _ _ _ _ f _
  have htypes : (PlacedType.itemNames? ∘ PlacedType.mapFields f) = PlacedType.itemNames? :=
    funext (PlacedType.itemNames?_mapFields f)
  rw [itemNames_eq, itemNames_eq, hroot, typesIn_mapFields, List.filterMap_map, htypes]

/-- Lowering a schema leaves its names alone. -/
theorem itemNames_lower {s : Schema} {cs : List Char} {low : Lowered} (h : (s.lower cs).result = .ok low) :
    low.schema.itemNames = s.itemNames := by
  obtain ⟨-, hschema, -⟩ := lower_inv h
  rw [hschema, itemNames_mapFields]
  refine itemNames_mapEnums (fun e => ?_) s
  unfold EnumDef.asFlags
  split <;> rfl

/-- The identifiers in every module of the declarations differ if and only if the names of every scope are
    apart. -/
theorem declarations_nodup_iff {s : Schema} {ds : List Declaration} (h : s.declarations.result = .ok ds) :
    (∀ path items, Inside ds path items → (items.map fun d => d.ident.text).Nodup) ↔
      ∀ names ∈ s.itemNames, Ident.Apart names := by
  rw [itemNames, List.forall_mem_map]
  constructor
  · intro hnodup sc hsc
    rcases exists_inside_of_scope h hsc with ⟨henums, hmessages⟩ | ⟨path, items, hinside, hfills⟩
    · rw [PlacedScope.itemNames, henums, hmessages]
      exact (Ident.nodup_textOf_iff []).mp List.nodup_nil
    · exact hfills.nodup_iff.mp (hnodup path items hinside)
  · intro hapart path items hinside
    rcases fills_of_inside h hinside with ⟨i, rest, rfl⟩ | ⟨sc, hsc, -, hfills, -⟩
    · exact List.nodup_singleton _
    · exact hfills.nodup_iff.mpr (hapart sc hsc)

end Schema

-- ── Identifiers in the accessors ─────────────────────────────────────────────────

/-- **No two items in a module of the accessors have one identifier if and only if the names of every scope
    are apart**: those of its enums and messages, and in snake case those of the messages that declare types. -/
theorem accessorsOf_idents_nodup {source text : String} (h : (accessorsOf source).result = .ok text) :
    ∃ s low ds, Schema.parse source = .ok s ∧ (lower source).result = .ok low ∧
      low.schema.declarations.result = .ok ds ∧
      text = Schema.accessorsHeader ++ CodeTree.renderAll (allCode ds) ++ "\n" ∧
      ((∀ path items, Inside ds path items → (items.map fun d => d.ident.text).Nodup) ↔
        ∀ names ∈ s.itemNames, Ident.Apart names) := by
  obtain ⟨low, ds, hlow, hds, htext⟩ := accessorsOf_inv h
  obtain ⟨s, hparse, hlower⟩ := lower_inv hlow
  refine ⟨s, low, ds, hparse, hlow, hds, htext, ?_⟩
  rw [Schema.declarations_nodup_iff hds, Schema.itemNames_lower hlower]

/-- A message that has its own name in snake case and declares a type. -/
def lowerCaseMessage : String :=
  "message foo \x7b\n" ++
  "  enum E \x7b\n" ++
  "    A = 0;\n" ++
  "  \x7d\n" ++
  "\x7d\n"

/-- The names of both schemas, and the identifiers of the declarations for the second. -/
theorem names_computed :
    (Schema.parse hart).toOption.map Schema.itemNames = some [["Hart", "hart"], ["Mode"]] ∧
    (Schema.parse lowerCaseMessage).toOption.map (fun s => s.scopes.map PlacedScope.definitionNames) =
      some [["foo"], ["E"]] ∧
    ((lower lowerCaseMessage).result.toOption.bind fun low =>
      low.schema.declarations.result.toOption.map fun ds => ds.map fun d => d.ident.text) =
        some ["foo", "foo"] := by
  rw [lower_eq, Schema.parse_eq, Schema.parse_eq]
  delta hart lowerCaseMessage
  simp only [String.toList_append, String.reduceToList]
  decide +kernel

/-- The names of a schema whose messages begin with a capital are apart. -/
theorem accessorsOf_idents_nodup_hart :
    ∃ low ds, (lower hart).result = .ok low ∧ low.schema.declarations.result = .ok ds ∧
      ∀ path items, Inside ds path items → (items.map fun d => d.ident.text).Nodup := by
  obtain ⟨text, h⟩ := accessorsOf_hart
  obtain ⟨s, low, ds, hparse, hlow, hds, -, hiff⟩ := accessorsOf_idents_nodup h
  have hnames := names_computed.1
  rw [hparse] at hnames
  refine ⟨low, ds, hlow, hds, hiff.mpr ?_⟩
  rw [Option.some.inj hnames]
  decide

/-- The structure of that message and the module of its types have one identifier, though no two definitions
    of a scope have one name. -/
theorem accessorsOf_idents_clash :
    ∃ text s low ds, (accessorsOf lowerCaseMessage).result = .ok text ∧
      Schema.parse lowerCaseMessage = .ok s ∧ (lower lowerCaseMessage).result = .ok low ∧
      low.schema.declarations.result = .ok ds ∧
      text = Schema.accessorsHeader ++ CodeTree.renderAll (allCode ds) ++ "\n" ∧
      (∀ sc ∈ s.scopes, sc.definitionNames.Nodup) ∧
      ∃ path items, Inside ds path items ∧ ¬ (items.map fun d => d.ident.text).Nodup := by
  obtain ⟨-, hscopes, hidents⟩ := names_computed
  cases hlow : (lower lowerCaseMessage).result with
  | error e => rw [hlow] at hidents; cases hidents
  | ok low =>
      rw [hlow, Except.toOption, Option.bind_some] at hidents
      cases hds : low.schema.declarations.result with
      | error e => rw [hds] at hidents; cases hidents
      | ok ds =>
          rw [hds] at hidents
          obtain ⟨text, h⟩ := accessorsOf_ok hlow hds
          obtain ⟨low', ds', hlow', hds', htext⟩ := accessorsOf_inv h
          rw [hlow] at hlow'
          cases hlow'
          rw [hds] at hds'
          cases hds'
          obtain ⟨s, hparse, -⟩ := lower_inv hlow
          rw [hparse] at hscopes
          have hnames : s.scopes.map PlacedScope.definitionNames = [["foo"], ["E"]] :=
            Option.some.inj hscopes
          have htexts : (ds.map fun d => d.ident.text) = ["foo", "foo"] := Option.some.inj hidents
          refine ⟨text, s, low, ds, h, hparse, rfl, hds, htext, ?_, [], ds, .here, ?_⟩
          · rw [← List.forall_mem_map (P := List.Nodup), hnames]
            decide
          · rw [htexts]
            decide

end FlagSchema
