import FlagSchema.Proofs.Lowering
import FlagSchema.Proofs.Types

/-!
# Declarations in modules

The declarations of a schema stand in modules that mirror its scopes: those of a scope are side by side, and
those of the types nested in a message are in a module next to the structure of the message.

* **`Declaration.Inside`**, **`Declaration.At`**: the items of a module, and a definition in it.
* **`PlacedScope`**, **`Schema.scopes`**: the scopes of a schema.
* **`Generator.Fills`**: items are those generated for a scope.
* **`Generator.ofMessage_inv`**: what is generated for a message.
* **`Schema.declarations_stand`**: the definition of every type stands in the module of the type.
* **`Schema.fills_of_inside`**: every module but those of the package is filled by one scope.
-/

namespace FlagSchema

-- ── Definitions at paths ─────────────────────────────────────────────────────────

namespace Declaration

/-- What a definition is known by. -/
def ident : Declaration → Ident
  | struct ident _    => ident
  | enum ident _ _    => ident
  | flags ident _ _ _ => ident
  | module ident _    => ident

/-- What a definition defines; a module defines no type. -/
def definition? : Declaration → Option Definition
  | struct _ _        => some .message
  | enum _ _ _        => some .enum
  | flags _ width _ _ => some (.flags width)
  | module _ _        => none

/-- The items of the module that a path leads to. -/
inductive Inside : List Declaration → List Ident → List Declaration → Prop where
  | here {ds : List Declaration} : Inside ds [] ds
  | module {ds items inner : List Declaration} {ident : Ident} {path : List Ident}
      (hmodule : .module ident items ∈ ds) (hinner : Inside items path inner) : Inside ds (ident :: path) inner

/-- A definition is one of the items that a path leads to. -/
def At (ds : List Declaration) (path : List Ident) (d : Declaration) : Prop :=
  ∃ items, Inside ds path items ∧ d ∈ items

variable {ds es items : List Declaration} {path : List Ident} {i : Ident} {d : Declaration}

theorem At.here (h : d ∈ ds) : At ds [] d :=
  ⟨ds, .here, h⟩

theorem At.module (hmodule : .module i items ∈ ds) (h : At items path d) : At ds (i :: path) d := by
  obtain ⟨inner, hinner, hd⟩ := h
  exact ⟨inner, .module hmodule hinner, hd⟩

/-- More items make no definition unreachable. -/
theorem At.mono (hsub : ds ⊆ es) (h : At ds path d) : At es path d := by
  obtain ⟨inner, hinner, hd⟩ := h
  cases hinner with
  | here => exact .here (hsub hd)
  | module hmodule hinner => exact .module (hsub hmodule) ⟨inner, hinner, hd⟩

/-- A module that is one of the items is one step further. -/
theorem At.inside (h : At ds path (.module i items)) : Inside ds (path ++ [i]) items := by
  obtain ⟨inner, hinner, hd⟩ := h
  induction hinner with
  | here => exact .module hd .here
  | module hmodule _ ih => exact .module hmodule (ih hd)

end Declaration

open Declaration

-- ── Identifiers ──────────────────────────────────────────────────────────────────

/-- Identifiers are those of names. -/
def Ident.AreOf (names : List String) (ids : List Ident) : Prop :=
  List.Forall₂ (fun name i => Ident.ofName? name = some i) names ids

/-- Names have one list of identifiers at most. -/
theorem Ident.AreOf.unique {names : List String} {ids ids' : List Ident} (h : AreOf names ids)
    (h' : AreOf names ids') : ids = ids' := by
  induction h generalizing ids' with
  | nil => cases h'; rfl
  | cons hi _ ih =>
      cases h' with
      | cons hi' h' => rw [ih h', Option.some.inj (hi.symm.trans hi')]

theorem identOf_inv {name : String} {i : Ident} (h : (identOf name).result = .ok i) :
    Ident.ofName? name = some i := by
  unfold identOf at h
  split at h
  · next hi => cases h; exact hi
  · cases h

theorem identOf_each_inv {names : List String} {ids : List Ident}
    (h : (Traced.each identOf names).result = .ok ids) : Ident.AreOf names ids :=
  (Traced.forall₂_of_each h).imp fun _ _ => identOf_inv

-- ── Scopes ───────────────────────────────────────────────────────────────────────

/-- A scope with the names of the modules from the root to its declarations. -/
structure PlacedScope where
  scope    : String
  module   : List String
  enums    : List EnumDef
  messages : List Message

namespace PlacedScope

/-- The types of a scope and of the messages declared in it. -/
def typesIn (sc : PlacedScope) : List PlacedType :=
  sc.enums.map (fun e => ⟨sc.scope, sc.module, .enum e⟩) ++
    sc.messages.flatMap (Message.typesIn sc.scope sc.module)

/-- The scope of a message that is found in another one. -/
def within (sc : PlacedScope) (m : Message) : PlacedScope :=
  ⟨joinName sc.scope m.name, sc.module ++ [snakeCase m.name], m.enums, m.messages⟩

end PlacedScope

/-- The scope of a type; an enum has none. -/
def PlacedType.inner? (t : PlacedType) : Option PlacedScope :=
  match t.type with
  | .message m => some ⟨t.fullName, t.module ++ [snakeCase m.name], m.enums, m.messages⟩
  | .enum _    => none

namespace PlacedScope

variable {sc inner : PlacedScope} {m : Message} {t : PlacedType}

/-- A scope and the scopes of its types. -/
def scopes (sc : PlacedScope) : List PlacedScope :=
  sc :: sc.typesIn.filterMap PlacedType.inner?

/-- The types that a message brings are those of its scope and itself. -/
theorem typesIn_within (sc : PlacedScope) (m : Message) :
    m.typesIn sc.scope sc.module = (sc.within m).typesIn ++ [⟨sc.scope, sc.module, .message m⟩] :=
  Message.typesIn_eq ..

theorem mem_typesIn_of_enum {e : EnumDef} (he : e ∈ sc.enums) :
    ⟨sc.scope, sc.module, .enum e⟩ ∈ sc.typesIn :=
  List.mem_append_left _ (List.mem_map_of_mem he)

theorem mem_typesIn_of_message (hm : m ∈ sc.messages) (ht : t ∈ m.typesIn sc.scope sc.module) :
    t ∈ sc.typesIn :=
  List.mem_append_right _ (List.mem_flatMap.mpr ⟨m, hm, ht⟩)

theorem message_mem_typesIn (hm : m ∈ sc.messages) : ⟨sc.scope, sc.module, .message m⟩ ∈ sc.typesIn :=
  mem_typesIn_of_message hm (by rw [typesIn_within]; exact List.mem_append_right _ (List.mem_singleton_self _))

/-- The types of a message of a scope are types of the scope. -/
theorem typesIn_within_subset (hm : m ∈ sc.messages) : (sc.within m).typesIn ⊆ sc.typesIn :=
  fun _ ht => mem_typesIn_of_message hm (by rw [typesIn_within]; exact List.mem_append_left _ ht)

/-- The scopes in a message of a scope are scopes in that scope. -/
theorem scopes_within_subset (hm : m ∈ sc.messages) : (sc.within m).scopes ⊆ sc.scopes := by
  intro inner hinner
  rcases List.mem_cons.mp hinner with rfl | hinner
  · exact List.mem_cons_of_mem _ (List.mem_filterMap.mpr ⟨_, message_mem_typesIn hm, rfl⟩)
  · obtain ⟨t, ht, hinner⟩ := List.mem_filterMap.mp hinner
    exact List.mem_cons_of_mem _ (List.mem_filterMap.mpr ⟨t, typesIn_within_subset hm ht, hinner⟩)

end PlacedScope

namespace Schema

/-- The outermost scope of a schema. -/
def root (s : Schema) : PlacedScope := ⟨s.scope, s.rootModule, s.enums, s.messages⟩

/-- The scopes of a schema. -/
def scopes (s : Schema) : List PlacedScope := s.root.scopes

theorem typesIn_root (s : Schema) : s.root.typesIn = s.typesIn := by
  rw [typesIn, Message.allTypesIn_eq]
  rfl

end Schema

-- ── What is generated for a scope ────────────────────────────────────────────────

namespace Generator

variable {g : Generator} {scope : String} {module : List String} {m : Message} {ds items : List Declaration}

/-- The definition that is generated for a type. -/
def definitionOf (g : Generator) (t : PlacedType) : Generating Declaration :=
  match t.type with
  | .message m => g.structOf t.fullName t.module m
  | .enum e    => enumOrFlagsOf t.scope e

/-- Items are those generated for the enums and the messages of a scope. -/
def Fills (g : Generator) (sc : PlacedScope) (items : List Declaration) : Prop :=
  ∃ enums messages,
    List.Forall₂ (fun e d => (enumOrFlagsOf sc.scope e).result = .ok d) sc.enums enums ∧
    List.Forall₂ (fun m ds => (g.ofMessage sc.scope sc.module m).result = .ok ds) sc.messages messages ∧
    items = enums ++ messages.flatten

theorem structOf_inv {fullName : String} {d : Declaration}
    (h : (g.structOf fullName module m).result = .ok d) :
    ∃ ident members, Ident.ofName? m.name = some ident ∧
      List.Forall₂ (fun f member => (g.member fullName module f).result = .ok member) m.fields members ∧
      d = .struct ident (members.filterMap id) := by
  obtain ⟨ident, hident, h⟩ := Traced.bind_eq_ok.mp h
  obtain ⟨members, hmembers, h⟩ := Traced.bind_eq_ok.mp h
  cases h
  exact ⟨ident, members, identOf_inv hident, Traced.forall₂_of_each hmembers, rfl⟩

/-- The definition for an enum has its name and defines what the enum is. -/
theorem enumOrFlagsOf_inv {e : EnumDef} {d : Declaration} (h : (enumOrFlagsOf scope e).result = .ok d) :
    Ident.ofName? e.name = some d.ident ∧ d.definition? = some e.definition := by
  unfold enumOrFlagsOf at h
  split at h
  · next width hstorage =>
      obtain ⟨ident, hident, h⟩ := Traced.bind_eq_ok.mp h
      obtain ⟨idents, -, h⟩ := Traced.bind_eq_ok.mp h
      cases h
      exact ⟨identOf_inv hident, by rw [EnumDef.definition, hstorage]; rfl⟩
  · next hstorage =>
      obtain ⟨ident, hident, h⟩ := Traced.bind_eq_ok.mp h
      obtain ⟨variants, -, h⟩ := Traced.bind_eq_ok.mp h
      cases variants with
      | nil => cases h
      | cons first others =>
          cases h
          exact ⟨identOf_inv hident, by rw [EnumDef.definition, hstorage]; rfl⟩

/-- **The definition for a type has its name and defines what the type is.** -/
theorem definitionOf_inv {t : PlacedType} {d : Declaration} (h : (g.definitionOf t).result = .ok d) :
    Ident.ofName? t.type.name = some d.ident ∧ d.definition? = some t.definition := by
  obtain ⟨scope, module, type⟩ := t
  cases type with
  | message m =>
      obtain ⟨ident, members, hident, -, rfl⟩ := structOf_inv h
      exact ⟨hident, rfl⟩
  | enum e => exact enumOrFlagsOf_inv h

theorem ofMessages_inv {ms : List Message} (h : (g.ofMessages scope module ms).result = .ok ds) :
    ∃ dss, List.Forall₂ (fun m ds => (g.ofMessage scope module m).result = .ok ds) ms dss ∧
      ds = dss.flatten := by
  induction ms generalizing ds with
  | nil => cases h; exact ⟨[], .nil, rfl⟩
  | cons m ms ih =>
      obtain ⟨first, hfirst, h⟩ := Traced.bind_eq_ok.mp h
      obtain ⟨others, hothers, h⟩ := Traced.bind_eq_ok.mp h
      cases h
      obtain ⟨dss, hdss, rfl⟩ := ih hothers
      exact ⟨first :: dss, .cons hfirst hdss, rfl⟩

/-- **What is generated for a message**: its structure, and a module that its scope fills, unless it
    declares no types. -/
theorem ofMessage_inv {sc : PlacedScope} (h : (g.ofMessage sc.scope sc.module m).result = .ok ds) :
    ∃ d, (g.definitionOf ⟨sc.scope, sc.module, .message m⟩).result = .ok d ∧
      ((m.enums = [] ∧ m.messages = [] ∧ ds = [d]) ∨
        (¬ (m.enums = [] ∧ m.messages = []) ∧ ∃ ident items, Ident.ofName? (snakeCase m.name) = some ident ∧
          g.Fills (sc.within m) items ∧ ds = [d, .module ident items])) := by
  cases m with
  | mk name position fields messages enums settings oneofs =>
      rw [ofMessage] at h
      obtain ⟨d, hd, h⟩ := Traced.bind_eq_ok.mp h
      refine ⟨d, hd, ?_⟩
      split at h
      · next hempty =>
          rw [Bool.and_eq_true, List.isEmpty_iff, List.isEmpty_iff] at hempty
          cases h
          exact .inl ⟨hempty.1, hempty.2, rfl⟩
      · next hempty =>
          rw [Bool.and_eq_true, List.isEmpty_iff, List.isEmpty_iff] at hempty
          obtain ⟨eds, heds, h⟩ := Traced.bind_eq_ok.mp h
          obtain ⟨inner, hinner, h⟩ := Traced.bind_eq_ok.mp h
          obtain ⟨ident, hident, h⟩ := Traced.bind_eq_ok.mp h
          cases h
          obtain ⟨dss, hdss, rfl⟩ := ofMessages_inv hinner
          exact .inr ⟨hempty, ident, _, identOf_inv hident,
            ⟨eds, dss, Traced.forall₂_of_each heds, hdss, rfl⟩, rfl⟩

-- ── From types to definitions ────────────────────────────────────────────────────

/-- A type has its definition among items, as deep in modules as the modules of the type go beyond those
    of the items; next to it is a module that the scope of the type fills, unless that declares nothing. -/
def Stands (g : Generator) (module : List String) (items : List Declaration) (t : PlacedType) : Prop :=
  ∃ names path d, t.module = module ++ names ∧ Ident.AreOf names path ∧
    (g.definitionOf t).result = .ok d ∧ At items path d ∧
    ∀ inner, t.inner? = some inner → (inner.enums = [] ∧ inner.messages = []) ∨
      ∃ ident body, At items path (.module ident body) ∧ g.Fills inner body

variable {sc inner : PlacedScope} {t : PlacedType} {d : Declaration}

theorem Stands.mono (hsub : ds ⊆ items) (h : g.Stands module ds t) : g.Stands module items t := by
  obtain ⟨names, path, d, hnames, hpath, hd, hat, hinner⟩ := h
  refine ⟨names, path, d, hnames, hpath, hd, hat.mono hsub, fun inner hi => ?_⟩
  rcases hinner inner hi with hempty | ⟨ident, body, hbody, hfills⟩
  · exact .inl hempty
  · exact .inr ⟨ident, body, hbody.mono hsub, hfills⟩

/-- What stands among the items of a module stands among the items around it. -/
theorem Stands.deeper {name : String} {ident : Ident} (hname : Ident.ofName? name = some ident)
    (hmodule : .module ident items ∈ ds) (h : g.Stands (module ++ [name]) items t) :
    g.Stands module ds t := by
  obtain ⟨names, path, d, hnames, hpath, hd, hat, hinner⟩ := h
  refine ⟨name :: names, ident :: path, d, ?_, .cons hname hpath, hd, hat.module hmodule,
    fun inner hi => ?_⟩
  · rw [hnames, List.append_assoc, List.singleton_append]
  · rcases hinner inner hi with hempty | ⟨i, body, hbody, hfills⟩
    · exact .inl hempty
    · exact .inr ⟨i, body, hbody.module hmodule, hfills⟩

/-- If the types of each message of a scope stand, the types of the scope stand. -/
theorem Fills.stands_of (h : g.Fills sc items)
    (hmessages : ∀ m ∈ sc.messages, ∀ ds, (g.ofMessage sc.scope sc.module m).result = .ok ds →
      ∀ t ∈ m.typesIn sc.scope sc.module, g.Stands sc.module ds t) :
    ∀ t ∈ sc.typesIn, g.Stands sc.module items t := by
  obtain ⟨eds, dss, heds, hdss, rfl⟩ := h
  intro t ht
  rcases List.mem_append.mp ht with ht | ht
  · obtain ⟨e, he, rfl⟩ := List.mem_map.mp ht
    obtain ⟨d, hd, hok⟩ := exists_right_of_forall₂ heds he
    exact ⟨[], [], d, (List.append_nil _).symm, .nil, hok, .here (List.mem_append_left _ hd), nofun⟩
  · obtain ⟨m, hm, ht⟩ := List.mem_flatMap.mp ht
    obtain ⟨ds, hds, hok⟩ := exists_right_of_forall₂ hdss hm
    exact (hmessages m hm ds hok t ht).mono fun d hd =>
      List.mem_append_right _ (List.mem_flatten.mpr ⟨ds, hds, hd⟩)

theorem ofMessage_stands (h : (g.ofMessage sc.scope sc.module m).result = .ok ds) :
    ∀ t ∈ m.typesIn sc.scope sc.module, g.Stands sc.module ds t := by
  induction m using Message.nested_induction generalizing sc ds with
  | step m ih =>
      intro t ht
      obtain ⟨d, hd, hinner⟩ := ofMessage_inv h
      rw [PlacedScope.typesIn_within] at ht
      rcases List.mem_append.mp ht with ht | ht
      · rcases hinner with ⟨henums, hmessages, -⟩ | ⟨-, ident, body, hident, hfills, rfl⟩
        · rw [PlacedScope.typesIn, PlacedScope.within, henums, hmessages] at ht
          cases ht
        · have hbody : g.Stands (sc.within m).module body t :=
            hfills.stands_of (fun i hi ds hds => ih i hi hds) t ht
          exact hbody.deeper hident (List.mem_cons_of_mem _ (List.mem_singleton_self _))
      · cases List.mem_singleton.mp ht
        refine ⟨[], [], d, (List.append_nil _).symm, .nil, hd, ?_, fun inner hi => ?_⟩
        · rcases hinner with ⟨-, -, rfl⟩ | ⟨-, ident, body, -, -, rfl⟩ <;>
            exact .here (List.mem_cons_self ..)
        · cases hi
          rcases hinner with ⟨henums, hmessages, -⟩ | ⟨-, ident, body, -, hfills, rfl⟩
          · exact .inl ⟨henums, hmessages⟩
          · exact .inr ⟨ident, body, .here (List.mem_cons_of_mem _ (List.mem_singleton_self _)), hfills⟩

/-- **Every type of a scope stands among the items that fill the scope.** -/
theorem Fills.stands (h : g.Fills sc items) : ∀ t ∈ sc.typesIn, g.Stands sc.module items t :=
  h.stands_of fun _ _ _ hds => ofMessage_stands hds

-- ── From definitions to types ────────────────────────────────────────────────────

/-- A definition that fills a scope is that of a type of the scope, or the module of a message. -/
theorem Fills.of_mem (h : g.Fills sc items) (hd : d ∈ items) :
    (∃ t ∈ sc.typesIn, t.scope = sc.scope ∧ t.module = sc.module ∧ (g.definitionOf t).result = .ok d) ∨
      ∃ m ∈ sc.messages, ∃ ident body, Ident.ofName? (snakeCase m.name) = some ident ∧
        g.Fills (sc.within m) body ∧ d = .module ident body := by
  obtain ⟨eds, dss, heds, hdss, rfl⟩ := h
  rcases List.mem_append.mp hd with hd | hd
  · obtain ⟨e, he, hok⟩ := exists_left_of_forall₂ heds hd
    exact .inl ⟨_, PlacedScope.mem_typesIn_of_enum he, rfl, rfl, hok⟩
  · obtain ⟨ds, hds, hd⟩ := List.mem_flatten.mp hd
    obtain ⟨m, hm, hok⟩ := exists_left_of_forall₂ hdss hds
    obtain ⟨d', hd', hinner⟩ := ofMessage_inv hok
    have hself := PlacedScope.message_mem_typesIn hm
    rcases hinner with ⟨-, -, rfl⟩ | ⟨-, ident, body, hident, hfills, rfl⟩
    · cases List.mem_singleton.mp hd
      exact .inl ⟨_, hself, rfl, rfl, hd'⟩
    · rcases List.mem_cons.mp hd with rfl | hd
      · exact .inl ⟨_, hself, rfl, rfl, hd'⟩
      · exact .inr ⟨m, hm, ident, body, hident, hfills, List.mem_singleton.mp hd⟩

/-- **Every module in what fills a scope is filled by a scope in it.** -/
theorem Fills.of_inside {path : List Ident} (h : g.Fills sc items) (hinside : Inside items path ds) :
    ∃ inner ∈ sc.scopes, inner.typesIn ⊆ sc.typesIn ∧ g.Fills inner ds ∧
      ∃ names, inner.module = sc.module ++ names ∧ Ident.AreOf names path := by
  induction hinside generalizing sc with
  | here =>
      exact ⟨sc, List.mem_cons_self .., List.Subset.refl _, h, [], (List.append_nil _).symm, .nil⟩
  | module hmodule _ ih =>
      rcases h.of_mem hmodule with ⟨t, -, -, -, ht⟩ | ⟨m, hm, ident, body, hident, hfills, heq⟩
      · cases (definitionOf_inv ht).2
      · cases heq
        obtain ⟨inner, hinner, htypes, hfills, names, hnames, hpath⟩ := ih hfills
        refine ⟨inner, PlacedScope.scopes_within_subset hm hinner,
          List.Subset.trans htypes (PlacedScope.typesIn_within_subset hm), hfills, _ :: names, ?_,
          .cons hident hpath⟩
        rw [hnames, PlacedScope.within, List.append_assoc, List.singleton_append]

end Generator

-- ── Schemas ──────────────────────────────────────────────────────────────────────

namespace Declaration

/-- Items inside modules, the last one innermost. -/
def inModules (items : List Declaration) : List Ident → List Declaration
  | []      => items
  | i :: is => [.module i (inModules items is)]

variable {items inner : List Declaration} {ids path : List Ident} {d : Declaration}

theorem Inside.inModules (h : Inside items path inner) :
    Inside (inModules items ids) (ids ++ path) inner := by
  induction ids with
  | nil => exact h
  | cons i ids ih => exact .module (List.mem_singleton_self _) ih

theorem At.inModules (h : At items path d) : At (Declaration.inModules items ids) (ids ++ path) d := by
  obtain ⟨inner, hinner, hd⟩ := h
  exact ⟨inner, hinner.inModules, hd⟩

/-- A module in modules that hold items is one of theirs, or holds but the next one. -/
theorem Inside.of_inModules (h : Inside (Declaration.inModules items ids) path inner) :
    (∃ i rest, inner = [.module i rest]) ∨ ∃ rest, path = ids ++ rest ∧ Inside items rest inner := by
  induction ids generalizing path with
  | nil => exact .inr ⟨path, rfl, h⟩
  | cons i ids ih =>
      cases h with
      | here => exact .inl ⟨i, _, rfl⟩
      | module hmodule hinner =>
          cases List.mem_singleton.mp hmodule
          rcases ih hinner with hnext | ⟨rest, rfl, hrest⟩
          · exact .inl hnext
          · exact .inr ⟨rest, rfl, hrest⟩

end Declaration

namespace Schema

variable {s : Schema} {ds items : List Declaration} {path : List Ident}

theorem nest_inv {names : List String} (h : (nest items names).result = .ok ds) :
    ∃ ids, Ident.AreOf names ids ∧ ds = inModules items ids := by
  induction names generalizing ds with
  | nil => cases h; exact ⟨[], .nil, rfl⟩
  | cons name names ih =>
      obtain ⟨inner, hinner, h⟩ := Traced.bind_eq_ok.mp h
      obtain ⟨i, hi, h⟩ := Traced.bind_eq_ok.mp h
      cases h
      obtain ⟨ids, hids, rfl⟩ := ih hinner
      exact ⟨i :: ids, .cons (identOf_inv hi) hids, rfl⟩

/-- The declarations of a schema are what fills its outermost scope, in the modules of the package. -/
theorem declarations_inv (h : s.declarations.result = .ok ds) :
    ∃ items ids, (Generator.ofSchema s).Fills s.root items ∧ Ident.AreOf s.rootModule ids ∧
      ds = inModules items ids := by
  obtain ⟨eds, heds, h⟩ := Traced.bind_eq_ok.mp h
  obtain ⟨mds, hmds, h⟩ := Traced.bind_eq_ok.mp h
  obtain ⟨dss, hdss, rfl⟩ := Generator.ofMessages_inv hmds
  obtain ⟨ids, hids, rfl⟩ := nest_inv h
  exact ⟨_, ids, ⟨eds, dss, Traced.forall₂_of_each heds, hdss, rfl⟩, hids, rfl⟩

/-- **Every type of a schema has its definition in its module**, and next to it is a module that its scope
    fills, unless that declares nothing. -/
theorem declarations_stand (h : s.declarations.result = .ok ds) :
    ∀ t ∈ s.typesIn, (Generator.ofSchema s).Stands [] ds t := by
  obtain ⟨items, ids, hfills, hids, rfl⟩ := declarations_inv h
  intro t ht
  rw [← typesIn_root] at ht
  obtain ⟨names, path, d, hnames, hpath, hd, hat, hinner⟩ := hfills.stands t ht
  refine ⟨t.module, ids ++ path, d, rfl, ?_, hd, hat.inModules, fun inner hi => ?_⟩
  · rw [hnames]
    exact List.rel_append hids hpath
  · rcases hinner inner hi with hempty | ⟨ident, body, hbody, hbodyFills⟩
    · exact .inl hempty
    · exact .inr ⟨ident, body, hbody.inModules, hbodyFills⟩

/-- **Every module of the declarations is filled by a scope of the schema**, but those of the package, which
    hold nothing but the next one. -/
theorem fills_of_inside (h : s.declarations.result = .ok ds) (hinside : Inside ds path items) :
    (∃ i rest, items = [.module i rest]) ∨
      ∃ sc ∈ s.scopes, sc.typesIn ⊆ s.typesIn ∧ (Generator.ofSchema s).Fills sc items ∧
        Ident.AreOf sc.module path := by
  obtain ⟨rootItems, ids, hfills, hids, rfl⟩ := declarations_inv h
  rcases hinside.of_inModules with hnext | ⟨rest, rfl, hrest⟩
  · exact .inl hnext
  · obtain ⟨sc, hsc, htypes, hscFills, names, hnames, hpath⟩ := hfills.of_inside hrest
    rw [typesIn_root] at htypes
    refine .inr ⟨sc, hsc, htypes, hscFills, ?_⟩
    rw [hnames]
    exact List.rel_append hids hpath

/-- **Every scope of a schema that declares something fills a module** of the declarations. -/
theorem exists_inside_of_scope {sc : PlacedScope} (h : s.declarations.result = .ok ds) (hsc : sc ∈ s.scopes) :
    (sc.enums = [] ∧ sc.messages = []) ∨
      ∃ path items, Inside ds path items ∧ (Generator.ofSchema s).Fills sc items := by
  rcases List.mem_cons.mp hsc with rfl | hsc
  · obtain ⟨items, ids, hfills, -, rfl⟩ := declarations_inv h
    exact .inr ⟨ids ++ [], items, Inside.inModules .here, hfills⟩
  · obtain ⟨t, ht, hinner⟩ := List.mem_filterMap.mp hsc
    rw [typesIn_root] at ht
    obtain ⟨-, path, -, -, -, -, -, hbody⟩ := declarations_stand h t ht
    rcases hbody sc hinner with hempty | ⟨ident, body, hat, hfills⟩
    · exact .inl hempty
    · exact .inr ⟨path ++ [ident], body, hat.inside, hfills⟩

/-- **Every definition in the declarations is that of a type** of the schema, in the module of the type. -/
theorem exists_type_of_at {d : Declaration} {definition : Definition} (h : s.declarations.result = .ok ds)
    (hat : At ds path d) (hd : d.definition? = some definition) :
    ∃ t ∈ s.typesIn, Ident.AreOf t.module path ∧ ((Generator.ofSchema s).definitionOf t).result = .ok d := by
  obtain ⟨items, hinside, hmem⟩ := hat
  rcases fills_of_inside h hinside with ⟨i, rest, rfl⟩ | ⟨sc, -, htypes, hfills, hpath⟩
  · cases List.mem_singleton.mp hmem
    cases hd
  · rcases hfills.of_mem hmem with ⟨t, ht, -, hmodule, hok⟩ | ⟨m, -, ident, body, -, -, rfl⟩
    · exact ⟨t, htypes ht, hmodule ▸ hpath, hok⟩
    · cases hd

end Schema

end FlagSchema
