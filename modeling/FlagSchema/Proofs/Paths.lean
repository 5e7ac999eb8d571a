import FlagSchema.Proofs.Structures

/-!
# Paths to types

A field reaches the type it holds by a path: out of every module around its structure, into the modules of
the type, to its name. The path comes from a table of modules, the modules themselves from the nesting of
messages; both follow the types of the schema. So do the words that are written for the path, and the items that
are written for the definition.

* **`TypePath.from?`**: the module that a path leads to from another one.
* **`TypePath.WordsLeadTo`**: the words of a path lead to the items of a definition.
* **`Schema.Reaches`**: a path leads to the definition generated for a full name.
* **`accessorsOf_reaches`**: every path in the accessors leads to the definition of the type referred to.
-/

namespace FlagSchema

open Declaration

variable {source : String} {low : Lowered}

-- ── Names ────────────────────────────────────────────────────────────────────────

/-- A name with an identifier has no dot. -/
theorem Ident.dot_notMem_of_ofName? {name : String} {i : Ident} (h : ofName? name = some i) :
    '.' ∉ name.toList := by
  unfold ofName? at h
  split at h
  · next hword =>
      have hwords : ∀ word ∈ unavailable, '.' ∉ word.toList := by decide
      exact hwords name (List.contains_iff_mem.mp hword)
  · split at h
    · cases h
    · next hdot => exact fun hmem => hdot (List.contains_iff_mem.mpr hmem)

/-- No identifier of a name is written as the word that leads out of a module. -/
theorem Ident.render_ne_super {name : String} {i : Ident} (h : ofName? name = some i) : i.render ≠ "super" := by
  unfold ofName? at h
  split at h
  · next hword =>
      cases h
      have hwords : ∀ word ∈ unavailable, word ++ "_" ≠ "super" := by decide
      exact hwords name (List.contains_iff_mem.mp hword)
  · next hword =>
      split at h
      · cases h
      · cases h
        rw [render]
        split
        · intro heq
          have hfirst := congrArg (fun text => text.toList.head?) heq
          simp at hfirst
        · rintro rfl
          exact hword (by decide)

theorem Ident.AreOf.render_ne_super {names : List String} {ids : List Ident} (h : AreOf names ids) :
    ∀ i ∈ ids, i.render ≠ "super" := by
  intro i hi
  obtain ⟨name, -, hname⟩ := exists_left_of_forall₂ h hi
  exact Ident.render_ne_super hname

/-- A name without a dot is the last part of a full name that ends with it. -/
theorem lastSegment_joinName (scope : String) {name : String} (h : '.' ∉ name.toList) :
    lastSegment (joinName scope name) = name := by
  have hsplit := Text.splitAt_of_notMem h
  unfold joinName
  split
  · rw [lastSegment, hsplit]
    exact String.ofList_toList
  · have htext : (scope ++ "." ++ name).toList = scope.toList ++ '.' :: name.toList := by
      simp
    rw [lastSegment, htext, Text.splitAt_append, hsplit, List.getLastD_eq_getLast?, List.getLast?_append]
    exact String.ofList_toList

-- ── Members and paths ────────────────────────────────────────────────────────────

namespace Generator

variable {g : Generator} {message fullName : String} {module : List String} {f : Field} {path : TypePath}

/-- The member for a field holds what the field does. -/
theorem member_inv {member : Option Member} (h : (g.member message module f).result = .ok member) :
    ∃ holding, (g.holding message module f).result = .ok holding ∧ member.map Member.holding = holding ∧
      ∀ m ∈ member, Ident.ofName? (snakeCase f.name) = some m.ident := by
  obtain ⟨holding, hholding, h⟩ := Traced.bind_eq_ok.mp h
  refine ⟨holding, hholding, ?_⟩
  cases holding with
  | none => cases h; exact ⟨rfl, nofun⟩
  | some holding =>
      obtain ⟨ident, hident, h⟩ := Traced.bind_eq_ok.mp h
      have hname := identOf_inv hident
      split at h
      · cases h
        exact ⟨rfl, fun m hm => by cases hm; exact hname⟩
      · cases h
        exact ⟨rfl, fun m hm => by cases hm; exact hname⟩

/-- The parts of a path: out of every module, into those of the table, to the last part of the name. -/
theorem typePath_inv (h : (g.typePath module fullName).result = .ok path) :
    path.ups = module.length ∧ Ident.ofName? (lastSegment fullName) = some path.name ∧
      Ident.AreOf ((g.modules.lookup fullName).getD []) path.modules := by
  obtain ⟨name, hname, h⟩ := Traced.bind_eq_ok.mp h
  obtain ⟨modules, hmodules, h⟩ := Traced.bind_eq_ok.mp h
  cases h
  exact ⟨rfl, identOf_inv hname, identOf_each_inv hmodules⟩

end Generator

-- ── Where paths lead ─────────────────────────────────────────────────────────────

namespace TypePath

/-- The module that a path leads to from another one: as many of its modules are left, from the inside out,
    as the path says, then others are entered. -/
def from? (here : List Ident) (p : TypePath) : Option (List Ident) :=
  if p.ups ≤ here.length then some (here.take (here.length - p.ups) ++ p.modules) else none

/-- A path that is read in a module leads to a definition. -/
def LeadsTo (ds : List Declaration) (here : List Ident) (p : TypePath) (d : Declaration) : Prop :=
  ∃ target, p.from? here = some target ∧ At ds target d ∧ d.ident = p.name

/-- The words of a path that is read in a module are `super ::` for each module around, each of the names of other
    modules with `::` behind it, and the name of a definition. In the code of the definitions they lead into these
    modules, where the items of that definition stand, and one of them defines the type under the name. -/
def WordsLeadTo (ds : List Declaration) (here : List Ident) (p : TypePath) (d : Declaration)
    (definition : Definition) : Prop :=
  ∃ target inner,
    p.code = (List.replicate here.length (words "super ::")).flatten ++
      (target.flatMap fun name => [.word name] ++ words "::") ++ [.word d.ident.render] ∧
    Code.resolve? (here.map Ident.render) p.code = some (target, d.ident.render) ∧
    Code.Inside (allCode ds) target inner ∧ d.code.items ⊆ inner.items ∧
    ∃ i ∈ d.code.items, i.Defines d.ident.render definition

variable {ds : List Declaration} {here target : List Ident} {p : TypePath} {d : Declaration}

/-- The words of a path lead to where the path does. -/
theorem resolve?_code (h : p.from? here = some target) (hmodules : ∀ m ∈ p.modules, m.render ≠ "super") :
    Code.resolve? (here.map Ident.render) p.code = some (target.map Ident.render, p.name.render) := by
  unfold from? at h
  split at h
  · next hups =>
      cases h
      rw [code, List.append_assoc, Code.resolve?_supers (by rwa [List.length_map]), Code.resolve?_code hmodules,
        List.length_map, List.map_append, List.map_take]
  · cases h

/-- A path that leads out of every module around leads to the items of a definition if it leads to the definition. -/
theorem WordsLeadTo.of_modules {definition : Definition} (hups : p.ups = here.length) (hat : At ds p.modules d)
    (hname : d.ident = p.name) (hmodules : ∀ m ∈ p.modules, m.render ≠ "super")
    (hd : d.definition? = some definition) : p.WordsLeadTo ds here d definition := by
  obtain ⟨inner, hinner, hitems⟩ := hat.code
  have hfrom : p.from? here = some p.modules := by
    rw [from?, hups, if_pos (Nat.le_refl _), Nat.sub_self, List.take_zero, List.nil_append]
  refine ⟨p.modules.map Ident.render, inner, ?_, ?_, hinner, hitems, exists_defines hd⟩
  · rw [code, hups, hname, List.flatMap_map, List.flatMap]
    rfl
  · rw [resolve?_code hfrom hmodules, hname]

end TypePath

namespace Schema

variable {s : Schema} {ds : List Declaration} {here : List Ident} {path : TypePath} {fullName : String}
  {definition : Definition}

/-- A path that is read in a module leads to the definition generated for the type of a full name, whose
    modules are in the table, and its words lead to the items of that definition. -/
def Reaches (s : Schema) (ds : List Declaration) (here : List Ident) (path : TypePath) (fullName : String)
    (definition : Definition) : Prop :=
  ∃ t d, s.typeNamed? fullName = some t ∧ t.definition = definition ∧
    s.moduleTable.lookup fullName = some t.module ∧
    ((Generator.ofSchema s).definitionOf t).result = .ok d ∧ d.definition? = some definition ∧
    path.LeadsTo ds here d ∧ path.WordsLeadTo ds here d definition

/-- **The path to a full name that stands for something leads to the definition of its type.** -/
theorem reaches_of_typePath {module : List String} (h : s.declarations.result = .ok ds)
    (hget : (Symbols.ofSchema s).get? fullName = some definition) (hhere : Ident.AreOf module here)
    (hpath : ((Generator.ofSchema s).typePath module fullName).result = .ok path) :
    s.Reaches ds here path fullName definition := by
  rw [get?_ofSchema] at hget
  obtain ⟨t, ht, hdefinition⟩ := Option.map_eq_some_iff.mp hget
  obtain ⟨hmem, hfull⟩ := typeNamed?_inv ht
  obtain ⟨names, target, d, hnames, htarget, hd, hat, -⟩ := declarations_stand h t hmem
  obtain ⟨hident, hkind⟩ := Generator.definitionOf_inv hd
  obtain ⟨hups, hname, hmodules⟩ := Generator.typePath_inv hpath
  have hlookup : s.moduleTable.lookup fullName = some t.module := by rw [lookup_moduleTable, ht]; rfl
  have htargets : path.modules = target := by
    rw [Generator.ofSchema, hlookup, Option.getD_some, hnames, List.nil_append] at hmodules
    exact hmodules.unique htarget
  have hidents : d.ident = path.name := by
    rw [← hfull, PlacedType.fullName, lastSegment_joinName _ (Ident.dot_notMem_of_ofName? hident),
      hident] at hname
    exact Option.some.inj hname
  have hlength : path.ups = here.length := hups.trans (List.Forall₂.length_eq hhere)
  have hkind : d.definition? = some definition := hdefinition ▸ hkind
  refine ⟨t, d, ht, hdefinition, hlookup, hd, hkind, ⟨target, ?_, hat, hidents⟩, ?_⟩
  · rw [TypePath.from?, hlength, if_pos (Nat.le_refl _), Nat.sub_self, List.take_zero, List.nil_append, htargets]
  · exact .of_modules hlength (htargets ▸ hat) hidents hmodules.render_ne_super hkind

end Schema

-- ── Paths in the accessors ───────────────────────────────────────────────────────

/-- A field that remembers the name of a set of flags has the storage type of that set. -/
theorem flags_lower (h : (lower source).result = .ok low) {message fullName : String} {f : Field}
    (hf : (message, f) ∈ low.schema.fieldsIn) (hflags : f.flags = some fullName) :
    ∃ width, f.type.target = .scalar width ∧
      (Symbols.ofSchema low.schema).get? fullName = some (.flags width) := by
  obtain ⟨s, hparse, hlow⟩ := lower_inv h
  rw [Schema.fieldsIn_lower hlow] at hf
  obtain ⟨x, hx, heq⟩ := List.mem_map.mp hf
  cases heq
  cases htype : x.2.flagType? (Symbols.ofSchema low.schema) x.1 with
  | none =>
      rw [Field.asFlags_of_none htype, ((Schema.written_parse hparse).of_fieldsIn x hx).flags] at hflags
      cases hflags
  | some type =>
      obtain ⟨default, hdefault⟩ := Schema.defaults_lower hlow x hx type htype
      rw [Field.asFlags_of_some htype hdefault] at hflags ⊢
      cases hflags
      exact ⟨type.width, Field.target_withTarget _ _, Symbols.get?_of_resolve? (Field.flagType?_inv htype).2⟩

/-- What a field of a lowered schema refers to is what the full name stands for. -/
theorem get?_of_refersTo (h : (lower source).result = .ok low) {message fullName : String} {f : Field}
    {definition : Definition} (hf : (message, f) ∈ low.schema.fieldsIn)
    (hrefers : f.RefersTo (Symbols.ofSchema low.schema) message fullName definition) :
    (Symbols.ofSchema low.schema).get? fullName = some definition := by
  cases hrefers with
  | retyped hflags htype =>
      obtain ⟨width, htarget, hget⟩ := flags_lower h hf hflags
      rw [htype] at htarget
      cases htarget
      exact hget
  | named hflags htype hresolve => exact Symbols.get?_of_resolve? hresolve

/-- The accessors of a source are the text of the declarations of its lowered schema. -/
theorem accessorsOf_inv {text : String} (h : (accessorsOf source).result = .ok text) :
    ∃ low ds, (lower source).result = .ok low ∧ low.schema.declarations.result = .ok ds ∧
      text = Schema.accessorsHeader ++ CodeTree.renderAll (allCode ds) ++ "\n" := by
  obtain ⟨low, hlow, h⟩ := Traced.bind_eq_ok.mp h
  obtain ⟨ds, hds, h⟩ := Traced.bind_eq_ok.mp h
  cases h
  refine ⟨low, ds, ?_, hds, rfl⟩
  unfold Traced.mapError at hlow
  cases hresult : (lower source).result with
  | error e => rw [hresult] at hlow; cases hlow
  | ok low' => rw [hresult] at hlow; cases hlow; rfl

section

variable {t : PlacedType} {ds : List Declaration} {here : List Ident} {ident : Ident} {members : List Member}

/-- The accessors have a member for every field that refers to a type, and the path of the member leads to
    the definition of that type. -/
theorem exists_member {m : Message} {f : Field} {fullName : String} {definition : Definition}
    (h : (lower source).result = .ok low) (hds : low.schema.declarations.result = .ok ds)
    (ht : t ∈ low.schema.typesIn) (hm : t.type = .message m) (hhere : Ident.AreOf t.module here)
    (hstruct : ((Generator.ofSchema low.schema).definitionOf t).result = .ok (.struct ident members))
    (hf : f ∈ m.fields) (hrefers : f.RefersTo (Symbols.ofSchema low.schema) t.fullName fullName definition) :
    ∃ member ∈ members, ∃ path, Ident.ofName? (snakeCase f.name) = some member.ident ∧
      member.holding = definition.holding path ∧
      low.schema.Reaches ds here path fullName definition := by
  rw [Generator.definitionOf, hm] at hstruct
  obtain ⟨_, results, -, hresults, heq⟩ := Generator.structOf_inv hstruct
  cases heq
  obtain ⟨result, hresult, hok⟩ := exists_right_of_forall₂ hresults hf
  obtain ⟨holding, hholding, hmap, hname⟩ := Generator.member_inv hok
  rw [Generator.holding_of_refersTo hrefers] at hholding
  obtain ⟨path, hpath, hholding⟩ := Traced.bind_eq_ok.mp hholding
  cases hholding
  obtain ⟨member, rfl, hmember⟩ := Option.map_eq_some_iff.mp hmap
  have hget := get?_of_refersTo h (Schema.mem_fieldsIn_of_typesIn ht hm hf) hrefers
  exact ⟨member, List.mem_filterMap.mpr ⟨_, hresult, rfl⟩, path, hname member rfl, hmember,
    Schema.reaches_of_typePath hds hget hhere hpath⟩

/-- Every path of a member of a structure leads to a definition, which is what the member holds. -/
theorem reaches_holding_of_member {member : Member} {path : TypePath} (h : (lower source).result = .ok low)
    (hds : low.schema.declarations.result = .ok ds)
    (ht : t ∈ low.schema.typesIn) (hhere : Ident.AreOf t.module here)
    (hstruct : ((Generator.ofSchema low.schema).definitionOf t).result = .ok (.struct ident members))
    (hmember : member ∈ members) (hpath : member.holding.path? = some path) :
    ∃ fullName definition, member.holding = definition.holding path ∧
      low.schema.Reaches ds here path fullName definition := by
  cases htype : t.type with
  | enum e =>
      rw [Generator.definitionOf, htype] at hstruct
      have hkind := (Generator.enumOrFlagsOf_inv hstruct).2
      unfold EnumDef.definition at hkind
      split at hkind <;> cases hkind
  | message m =>
      rw [Generator.definitionOf, htype] at hstruct
      obtain ⟨_, results, -, hresults, heq⟩ := Generator.structOf_inv hstruct
      cases heq
      obtain ⟨result, hresult, hid⟩ := List.mem_filterMap.mp hmember
      cases hid
      obtain ⟨f, hf, hok⟩ := exists_left_of_forall₂ hresults hresult
      obtain ⟨holding, hholding, hmap, -⟩ := Generator.member_inv hok
      cases hmap
      obtain ⟨fullName, definition, hrefers, htypePath, hheld⟩ :=
        Generator.refersTo_of_holding hholding hpath
      have hget := get?_of_refersTo h (Schema.mem_fieldsIn_of_typesIn ht htype hf) hrefers
      exact ⟨fullName, definition, hheld, Schema.reaches_of_typePath hds hget hhere htypePath⟩

end

/-- Declarations for a lowered schema have a text. -/
theorem accessorsOf_ok {low : Lowered} {ds : List Declaration}
    (hlow : (lower source).result = .ok low) (hds : low.schema.declarations.result = .ok ds) :
    ∃ text, (accessorsOf source).result = .ok text := by
  refine ⟨_, Traced.bind_eq_ok.mpr ⟨low, ?_, Traced.bind_eq_ok.mpr ⟨ds, hds, rfl⟩⟩⟩
  rw [Traced.mapError, hlow]
  rfl

/-- What is computed of the declarations for a source is so for the declarations that it has. -/
theorem exists_declarations {β : Type} {f : List Declaration → β} {b : β}
    (h : ((lower source).result.toOption.bind fun low => low.schema.declarations.result.toOption.map f) = some b) :
    ∃ low ds, (lower source).result = .ok low ∧ low.schema.declarations.result = .ok ds ∧ f ds = b := by
  cases hlow : (lower source).result with
  | error e => rw [hlow] at h; cases h
  | ok low =>
      rw [hlow] at h
      obtain ⟨ds, hds, hb⟩ := exists_of_toOption_map h
      exact ⟨low, ds, rfl, hds, hb⟩

namespace Declaration

mutual

/-- Whether two definitions are the same. -/
def same : Declaration → Declaration → Bool
  | struct i xs, struct j ys           => i == j && xs == ys
  | enum i x xs, enum j y ys           => i == j && x == y && xs == ys
  | flags i w cs rows, flags j v ds ts => i == j && w == v && cs == ds && rows == ts
  | module i ds, module j es           => i == j && sameAll ds es
  | _, _                               => false

/-- Whether two lists hold the same definitions. -/
def sameAll : List Declaration → List Declaration → Bool
  | [], []           => true
  | d :: ds, e :: es => same d e && sameAll ds es
  | _, _             => false

end

mutual

theorem eq_of_same : ∀ {d e : Declaration}, same d e = true → d = e
  | struct .., struct .., h => by simpa [same] using h
  | enum .., enum .., h     => by simpa [same, and_assoc] using h
  | flags .., flags .., h   => by simpa [same, and_assoc] using h
  | module i ds, module j es, h => by
    rw [same, Bool.and_eq_true, beq_iff_eq] at h
    rw [h.1, eq_of_sameAll h.2]

theorem eq_of_sameAll : ∀ {ds es : List Declaration}, sameAll ds es = true → ds = es
  | [], [], _ => rfl
  | d :: ds, e :: es, h => by
    rw [sameAll, Bool.and_eq_true] at h
    rw [eq_of_same h.1, eq_of_sameAll h.2]

end

end Declaration

/-- Definitions that are computed to be the same are those for a source. -/
theorem lower_of_sameAll {ds : List Declaration}
    (h : ((lower source).result.toOption.bind fun low =>
      low.schema.declarations.result.toOption.map fun es => sameAll es ds) = some true) :
    ∃ low, (lower source).result = .ok low ∧ low.schema.declarations.result = .ok ds := by
  obtain ⟨low, es, hlow, hes, hsame⟩ := exists_declarations h
  exact ⟨low, hlow, eq_of_sameAll hsame ▸ hes⟩

theorem accessorsOf_hart : ∃ text, (accessorsOf hart).result = .ok text := by
  obtain ⟨low, h, -, -, -, hok⟩ := lower_hart_computed
  obtain ⟨ds, hds⟩ := exists_of_isOk hok
  exact accessorsOf_ok h hds

/-- **Every path in the accessors leads to a definition in the accessors.** The structure of each message is
    in its module, and so are its fields and methods in the code; a field of the message that refers to a type has
    a member that writes a path to it, and the words of this path, read in that module, lead to the definition
    generated for the full name referred to. No structure has any other path. -/
theorem accessorsOf_reaches {text : String} (h : (accessorsOf source).result = .ok text) :
    ∃ low ds, (lower source).result = .ok low ∧ low.schema.declarations.result = .ok ds ∧
      text = Schema.accessorsHeader ++ CodeTree.renderAll (allCode ds) ++ "\n" ∧
      (∀ t ∈ low.schema.typesIn, ∀ m, t.type = .message m →
        ∃ here ident members, Ident.AreOf t.module here ∧ Ident.ofName? m.name = some ident ∧
          At ds here (.struct ident members) ∧
          ∀ f ∈ m.fields, ∀ fullName definition,
            f.RefersTo (Symbols.ofSchema low.schema) t.fullName fullName definition →
              ∃ member ∈ members, ∃ path, Ident.ofName? (snakeCase f.name) = some member.ident ∧
                member.holding = definition.holding path ∧ member.Writes path.code definition ∧
                low.schema.Reaches ds here path fullName definition) ∧
      ∀ here ident members, At ds here (.struct ident members) →
        (allCode ds).HasStruct here ident members ∧
        ∀ member ∈ members, ∀ path, member.holding.path? = some path →
          ∃ fullName definition, member.Writes path.code definition ∧
            low.schema.Reaches ds here path fullName definition := by
  obtain ⟨low, ds, hlow, hds, htext⟩ := accessorsOf_inv h
  refine ⟨low, ds, hlow, hds, htext, fun t ht m hm => ?_, fun here ident members hat => ?_⟩
  · obtain ⟨names, here, d, hnames, hhere, hd, hat, -⟩ := Schema.declarations_stand hds t ht
    rw [List.nil_append] at hnames
    rw [← hnames] at hhere
    have hstruct := hd
    rw [Generator.definitionOf, hm] at hstruct
    obtain ⟨ident, results, hident, -, rfl⟩ := Generator.structOf_inv hstruct
    refine ⟨here, ident, _, hhere, hident, hat, fun f hf fullName definition hrefers => ?_⟩
    obtain ⟨member, hmember, path, hname, hholding, hreaches⟩ := exists_member hlow hds ht hm hhere hd hf hrefers
    exact ⟨member, hmember, path, hname, hholding, Member.writes_of_holding hholding, hreaches⟩
  · obtain ⟨t, ht, hhere, hd⟩ := Schema.exists_type_of_at hds hat rfl
    refine ⟨hat.hasStruct, fun member hmember path hpath => ?_⟩
    obtain ⟨fullName, definition, hholding, hreaches⟩ :=
      reaches_holding_of_member hlow hds ht hhere hd hmember hpath
    exact ⟨fullName, definition, Member.writes_of_holding hholding, hreaches⟩

/-- The paths in the accessors of a schema with a set of flags and a message that refers to itself. -/
theorem accessorsOf_reaches_hart :
    ∃ low ds, (lower hart).result = .ok low ∧ low.schema.declarations.result = .ok ds ∧
      (∀ t ∈ low.schema.typesIn, ∀ m, t.type = .message m →
        ∃ here ident members, Ident.AreOf t.module here ∧ Ident.ofName? m.name = some ident ∧
          At ds here (.struct ident members) ∧
          ∀ f ∈ m.fields, ∀ fullName definition,
            f.RefersTo (Symbols.ofSchema low.schema) t.fullName fullName definition →
              ∃ member ∈ members, ∃ path, Ident.ofName? (snakeCase f.name) = some member.ident ∧
                member.holding = definition.holding path ∧ member.Writes path.code definition ∧
                low.schema.Reaches ds here path fullName definition) := by
  obtain ⟨text, h⟩ := accessorsOf_hart
  obtain ⟨low, ds, hlow, hds, -, hreaches, -⟩ := accessorsOf_reaches h
  exact ⟨low, ds, hlow, hds, hreaches⟩

end FlagSchema
