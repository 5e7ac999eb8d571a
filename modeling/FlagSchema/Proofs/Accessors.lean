import FlagSchema.Proofs.Identifiers

/-!
# Identifiers in a structure

A structure has a field for each field of its message but the maps, and methods whose names are made of the
names of these fields: the name itself, and the name behind `set_`, `clear_` and the like or in front of `_len`.
Fields with different names may share one of them.

* **`Member.methodNames`**: the names of the methods of a field.
* **`Member.Apart`**: fields whose methods have different names, **`nodup_methods_iff`**.
* **`Schema.declarations_lower`**: what is declared for a lowered schema is declared for the fields as read.
* **`accessorsOf_methods_nodup`**: when the fields and the methods of a structure have different names.
* **`accessorsOf_methods_clash`**: they need not, though the fields of each message have different names.
-/

namespace FlagSchema

open Declaration

-- ── Names of methods ─────────────────────────────────────────────────────────────

namespace Member

/-- What stands in front of the name of a field in the names of its methods. -/
def prefixes (m : Member) : List String :=
  if m.isRepeated then ["add_", "mutable_", "clear_"]
  else
    match m.holding with
    | .scalar .string | .scalar .bytes => ["set_", "mutable_", "clear_"]
    | .scalar _ | .enum _ | .flags _ _ => ["set_", "clear_"]
    | .message _                       => ["has_", "set_", "mutable_", "clear_"]

/-- The names of the methods of a field that its own name stands last in. -/
def prefixed (m : Member) : List String := m.prefixes.map (· ++ m.ident.text)

/-- The name of the method that counts the values of a field with several. -/
def counted (m : Member) : List String := if m.isRepeated then [m.ident.text ++ "_len"] else []

/-- The names of the methods of a field: its own, that of the count, those behind a prefix. -/
def methodNames (m : Member) : List String := m.ident.text :: (m.counted ++ m.prefixed)

@[simp] theorem text_setter (m : Member) : m.setter.text = "set_" ++ m.ident.text := String.append_empty

@[simp] theorem text_clearer (m : Member) : m.clearer.text = "clear_" ++ m.ident.text := String.append_empty

@[simp] theorem text_lender (m : Member) : m.lender.text = "mutable_" ++ m.ident.text := String.append_empty

@[simp] theorem text_tester (m : Member) : m.tester.text = "has_" ++ m.ident.text := String.append_empty

@[simp] theorem text_adder (m : Member) : m.adder.text = "add_" ++ m.ident.text := String.append_empty

@[simp] theorem text_counter (m : Member) : m.counter.text = m.ident.text ++ "_len" :=
  congrArg (· ++ "_len") String.empty_append

/-- The methods of a field have those names. -/
theorem names_methods (m : Member) : m.methods.map (fun x => x.ident.text) = m.methodNames := by
  obtain ⟨ident, isRepeated, holding⟩ := m
  cases isRepeated with
  | true =>
      simp [methods, repeatedMethods, looking, taking, changing, lending, emptying, methodNames, counted,
        prefixed, prefixes]
  | false =>
      cases holding with
      | scalar s =>
          cases s <;> simp [methods, singleMethods, textMethods, looking, taking, changing, lending, emptying,
            methodNames, counted, prefixed, prefixes]
      | message path =>
          simp [methods, singleMethods, looking, taking, changing, lending, methodNames, counted, prefixed, prefixes]
      | enum path =>
          simp [methods, singleMethods, looking, taking, changing, methodNames, counted, prefixed, prefixes]
      | flags path w =>
          simp [methods, singleMethods, looking, taking, changing, methodNames, counted, prefixed, prefixes]

-- ── Names that differ ────────────────────────────────────────────────────────────

variable {m n : Member} {ms : List Member}

/-- Every prefix that a name may stand behind. -/
def allPrefixes : List String := ["set_", "clear_", "mutable_", "has_", "add_"]

theorem prefixes_subset (m : Member) : m.prefixes ⊆ allPrefixes := by
  unfold prefixes
  split
  · decide
  · split <;> decide

theorem nodup_prefixes (m : Member) : m.prefixes.Nodup := by
  unfold prefixes
  split
  · decide
  · split <;> decide

/-- The first letter tells the prefixes apart. -/
theorem prefix_inj {p q a b : String} (hp : p ∈ allPrefixes) (hq : q ∈ allPrefixes)
    (h : p ++ a = q ++ b) : p = q ∧ a = b := by
  have hfirst : ∀ p ∈ allPrefixes, ∀ q ∈ allPrefixes, p.toList.head? = q.toList.head? → p = q := by decide
  have hsome : ∀ p ∈ allPrefixes, p.toList ≠ [] := by decide
  have hheads := congrArg (fun s : String => s.toList.head?) h
  simp only [String.toList_append, List.head?_append_of_ne_nil _ (hsome _ hp),
    List.head?_append_of_ne_nil _ (hsome _ hq)] at hheads
  cases hfirst p hp q hq hheads
  exact ⟨rfl, (String.append_right_inj p).mp h⟩

/-- A name behind a prefix is not the same name in front of `_len`: no prefix has an `n`. -/
theorem prefix_ne_len {p : String} (hp : p ∈ allPrefixes) (a : String) : p ++ a ≠ a ++ "_len" := by
  intro h
  have hletter : ∀ p ∈ allPrefixes, p.toList.count 'n' = 0 := by decide
  have hlen : "_len".toList.count 'n' = 1 := by decide
  have hcounts := congrArg (fun s : String => s.toList.count 'n') h
  simp only [String.toList_append, List.count_append, hletter p hp, hlen] at hcounts
  omega

/-- No name is the same name with something in front of it. -/
theorem ne_prefix {p : String} (hp : p ∈ allPrefixes) (a : String) : a ≠ p ++ a := by
  intro h
  have hsome : ∀ p ∈ allPrefixes, p.toList.length ≠ 0 := by decide
  have hlengths := congrArg (fun s : String => s.toList.length) h
  simp only [String.toList_append, List.length_append] at hlengths
  exact hsome p hp (by omega)

theorem mem_prefixed {x : String} : x ∈ m.prefixed ↔ ∃ p ∈ m.prefixes, p ++ m.ident.text = x :=
  List.mem_map

theorem mem_counted {x : String} : x ∈ m.counted ↔ m.isRepeated = true ∧ x = m.ident.text ++ "_len" := by
  unfold counted
  split
  · next h => rw [List.mem_singleton, and_iff_right h]
  · next h => exact iff_of_false List.not_mem_nil fun hx => h hx.1

/-- The methods of one field have different names. -/
theorem nodup_methodNames (m : Member) : m.methodNames.Nodup := by
  refine List.nodup_cons.mpr ⟨fun h => ?_, List.nodup_append.mpr ⟨?_, ?_, ?_⟩⟩
  · rcases List.mem_append.mp h with h | h
    · have hlengths := congrArg (fun s : String => s.toList.length) (mem_counted.mp h).2
      rw [String.toList_append, List.length_append] at hlengths
      exact absurd hlengths (by simp)
    · obtain ⟨p, hp, heq⟩ := mem_prefixed.mp h
      exact ne_prefix (m.prefixes_subset hp) _ heq.symm
  · unfold counted
    split
    · exact List.nodup_singleton _
    · exact List.nodup_nil
  · exact m.nodup_prefixes.map fun p q h => (String.append_left_inj _).mp h
  · rintro x hx y hy rfl
    obtain ⟨p, hp, heq⟩ := mem_prefixed.mp hy
    exact prefix_ne_len (m.prefixes_subset hp) _ (heq.trans (mem_counted.mp hx).2)

/-- No method of a field is `new` but the one that has the name of the field. -/
theorem new_mem_methodNames : "new" ∈ m.methodNames ↔ m.ident.text = "new" := by
  constructor
  · intro h
    rcases List.mem_cons.mp h with h | h
    · exact h.symm
    exfalso
    rcases List.mem_append.mp h with h | h
    · have hlast := congrArg (fun s : String => s.toList.getLast?) (mem_counted.mp h).2
      simp only [String.toList_append] at hlast
      rw [List.getLast?_append_of_ne_nil _ (by decide)] at hlast
      exact absurd hlast (by decide)
    · have hfirst : ∀ p ∈ allPrefixes, p.toList ≠ [] ∧ p.toList.head? ≠ "new".toList.head? := by decide
      obtain ⟨p, hp, heq⟩ := mem_prefixed.mp h
      obtain ⟨hsome, hne⟩ := hfirst p (m.prefixes_subset hp)
      rw [← heq, String.toList_append, List.head?_append_of_ne_nil _ hsome] at hne
      exact hne rfl
  · intro h
    exact h ▸ List.mem_cons_self ..

/-- Fields whose names differ from each other, from `new` and from the names of all other methods; and
    nothing behind a prefix is the name of a count. -/
structure Apart (ms : List Member) : Prop where
  names    : (ms.map fun m => m.ident.text).Nodup
  new      : ∀ m ∈ ms, m.ident.text ≠ "new"
  derived  : ∀ m ∈ ms, ∀ n ∈ ms, m.ident.text ∉ n.counted ++ n.prefixed
  counts   : ∀ m ∈ ms, ∀ n ∈ ms, n.isRepeated = true → n.ident.text ++ "_len" ∉ m.prefixed

instance (ms : List Member) : Decidable (Apart ms) :=
  decidable_of_iff
    ((ms.map fun m => m.ident.text).Nodup ∧ (∀ m ∈ ms, m.ident.text ≠ "new") ∧
      (∀ m ∈ ms, ∀ n ∈ ms, m.ident.text ∉ n.counted ++ n.prefixed) ∧
      ∀ m ∈ ms, ∀ n ∈ ms, n.isRepeated = true → n.ident.text ++ "_len" ∉ m.prefixed)
    ⟨fun ⟨a, b, c, d⟩ => ⟨a, b, c, d⟩, fun h => ⟨h.names, h.new, h.derived, h.counts⟩⟩

/-- Fields of one name are one field where the names differ. -/
theorem eq_of_text (h : (ms.map fun m => m.ident.text).Nodup) (hm : m ∈ ms) (hn : n ∈ ms)
    (heq : m.ident.text = n.ident.text) : m = n :=
  List.inj_on_of_nodup_map h hm hn heq

/-- Two fields that are apart share no method. -/
theorem Apart.disjoint (h : Apart ms) (hm : m ∈ ms) (hn : n ∈ ms) (hne : m ≠ n) :
    List.Disjoint m.methodNames n.methodNames := by
  intro x hx hy
  rcases List.mem_cons.mp hx with rfl | hx <;> rcases List.mem_cons.mp hy with hy | hy
  · exact hne (eq_of_text h.names hm hn hy)
  · exact h.derived m hm n hn hy
  · exact h.derived n hn m hm (hy ▸ hx)
  rcases List.mem_append.mp hx with hx | hx <;> rcases List.mem_append.mp hy with hy | hy
  · have heq := (mem_counted.mp hx).2.symm.trans (mem_counted.mp hy).2
    exact hne (eq_of_text h.names hm hn ((String.append_left_inj _).mp heq))
  · obtain ⟨hrepeated, rfl⟩ := mem_counted.mp hx
    exact h.counts n hn m hm hrepeated hy
  · obtain ⟨hrepeated, rfl⟩ := mem_counted.mp hy
    exact h.counts m hm n hn hrepeated hx
  · obtain ⟨p, hp, rfl⟩ := mem_prefixed.mp hx
    obtain ⟨q, hq, heq⟩ := mem_prefixed.mp hy
    obtain ⟨-, htext⟩ := prefix_inj (n.prefixes_subset hq) (m.prefixes_subset hp) heq
    exact hne (eq_of_text h.names hm hn htext.symm)

/-- **The methods of a structure have different names if and only if its fields are apart.** -/
theorem nodup_methods_iff (ms : List Member) :
    ((structMethods ms).map fun x => x.ident.text).Nodup ↔ Apart ms := by
  have hnames : (structMethods ms).map (fun x => x.ident.text) = "new" :: ms.flatMap methodNames := by
    rw [structMethods, List.map_cons, List.map_flatMap, List.flatMap_congr fun m _ => m.names_methods]
    rfl
  rw [hnames, List.nodup_cons, List.nodup_flatMap]
  constructor
  · rintro ⟨hnew, -, hpairs⟩
    have hdifferent : (ms.map fun m => m.ident.text).Nodup := by
      refine List.pairwise_map.mpr (hpairs.imp ?_)
      intro m n hdisjoint heq
      exact hdisjoint (List.mem_cons_self ..) (List.mem_cons.mpr (.inl heq))
    have hsymm : Std.Symm (Function.onFun List.Disjoint methodNames) := ⟨fun _ _ h => h.symm⟩
    have hdisjoint : ∀ m ∈ ms, ∀ n ∈ ms, m ≠ n → List.Disjoint m.methodNames n.methodNames :=
      fun m hm n hn hne => hpairs.forall hm hn hne
    refine ⟨hdifferent, fun m hm heq => ?_, fun m hm n hn hmem => ?_, fun m hm n hn hrepeated hmem => ?_⟩
    · exact hnew (List.mem_flatMap.mpr ⟨m, hm, new_mem_methodNames.mpr heq⟩)
    · by_cases heq : m = n
      · cases heq
        exact (List.nodup_cons.mp m.nodup_methodNames).1 hmem
      · exact hdisjoint m hm n hn heq (List.mem_cons_self ..) (List.mem_cons_of_mem _ hmem)
    · have hcounted : n.ident.text ++ "_len" ∈ n.counted := mem_counted.mpr ⟨hrepeated, rfl⟩
      by_cases heq : m = n
      · cases heq
        obtain ⟨p, hp, hlen⟩ := mem_prefixed.mp hmem
        exact prefix_ne_len (m.prefixes_subset hp) _ hlen
      · exact hdisjoint m hm n hn heq (List.mem_cons_of_mem _ (List.mem_append_right _ hmem))
          (List.mem_cons_of_mem _ (List.mem_append_left _ hcounted))
  · intro h
    refine ⟨fun hmem => ?_, fun m _ => m.nodup_methodNames, ?_⟩
    · obtain ⟨m, hm, hnew⟩ := List.mem_flatMap.mp hmem
      exact h.new m hm (new_mem_methodNames.mp hnew)
    · exact (List.Nodup.of_map _ h.names).pairwise_of_forall_ne fun m hm n hn hne => h.disjoint hm hn hne

end Member

-- ── Fields with methods ──────────────────────────────────────────────────────────

/-- A field that has methods: no map. -/
def Field.isSingle (f : Field) : Bool :=
  match f.type with
  | .single _ => true
  | .map _ _  => false

namespace Generator

variable {g : Generator} {message : String} {module : List String} {f : Field}

/-- A member shows a field: it holds what the field does, and it has its label and its name in snake case. -/
structure Shows (g : Generator) (message : String) (module : List String) (f : Field) (x : Member) : Prop where
  holding  : (g.holding message module f).result = .ok (some x.holding)
  repeated : x.isRepeated = true ↔ f.label = .repeated
  name     : Ident.ofName? (snakeCase f.name) = some x.ident

/-- A field as it was read holds something unless it is a map. -/
theorem isSome_of_holding {holding : Option Holding} (h : (g.holding message module f).result = .ok holding)
    (hflags : f.flags = none) : holding.isSome = f.isSingle := by
  unfold Generator.holding at h
  unfold Field.isSingle
  rw [hflags] at h
  cases htype : f.type with
  | map key value => rw [htype] at h; cases h; rfl
  | single t =>
      rw [htype] at h
      cases t with
      | scalar s => cases h; rfl
      | named written =>
          dsimp only at h
          split at h
          · cases h
          · obtain ⟨path, -, h⟩ := Traced.bind_eq_ok.mp h
            cases h
            rfl

/-- A field as it was read has a member that shows it, unless it is a map. -/
theorem member_of_read {o : Option Member} (h : (g.member message module f).result = .ok o)
    (hflags : f.flags = none) :
    (f.isSingle = false ∧ o = none) ∨ ∃ x, f.isSingle = true ∧ o = some x ∧ g.Shows message module f x := by
  obtain ⟨holding, hholding, h⟩ := Traced.bind_eq_ok.mp h
  have hsingle := isSome_of_holding hholding hflags
  cases holding with
  | none =>
      cases h
      exact .inl ⟨hsingle.symm, rfl⟩
  | some holding =>
      obtain ⟨ident, hident, h⟩ := Traced.bind_eq_ok.mp h
      have hname := identOf_inv hident
      split at h
      · next hlabel =>
          cases h
          exact .inr ⟨_, hsingle.symm, rfl, hholding, iff_of_true rfl hlabel, hname⟩
      · next hlabel =>
          cases h
          exact .inr ⟨_, hsingle.symm, rfl, hholding, iff_of_false Bool.false_ne_true hlabel, hname⟩

/-- The members of a structure show the fields of the message that are no maps. -/
theorem structOf_shows {fullName : String} {m : Message} {d : Declaration}
    (h : (g.structOf fullName module m).result = .ok d) (hflags : ∀ f ∈ m.fields, f.flags = none) :
    ∃ ident members, d = .struct ident members ∧ Ident.ofName? m.name = some ident ∧
      List.Forall₂ (g.Shows fullName module) (m.fields.filter Field.isSingle) members := by
  obtain ⟨ident, members, hident, hmembers, rfl⟩ := structOf_inv h
  refine ⟨ident, _, rfl, hident, ?_⟩
  clear h
  generalize m.fields = fs at hmembers hflags
  induction hmembers with
  | nil => exact .nil
  | cons hf _ ih =>
      obtain ⟨hflag, hflags⟩ := List.forall_mem_cons.mp hflags
      rcases member_of_read hf hflag with ⟨hmap, rfl⟩ | ⟨x, hsingle, rfl, hshows⟩
      · rw [List.filter_cons_of_neg (by simp [hmap])]
        exact ih hflags
      · rw [List.filter_cons_of_pos hsingle]
        exact .cons hshows (ih hflags)

end Generator

-- ── Structures of lowered schemas ────────────────────────────────────────────────

namespace Schema

variable {source : String} {low : Lowered} {s : Schema}

/-- What is declared for a lowered schema is declared for its new enums and its fields as they were read. -/
theorem declarations_lower (hparse : Schema.parse source = .ok s)
    (h : (s.lower source.toList).result = .ok low) :
    Generator.ofSchema low.schema = Generator.ofSchema (s.mapEnums EnumDef.asFlags) ∧
      low.schema.declarations = (s.mapEnums EnumDef.asFlags).declarations := by
  obtain ⟨-, hschema, -⟩ := lower_inv h
  have hread := (written_parse hparse).of_fieldsIn
  rw [hschema]
  refine ⟨?_, declarations_mapFields fun x hx module => ?_⟩
  · rw [Generator.ofSchema, ofSchema_mapFields, moduleTable_mapFields, Generator.ofSchema]
  · rw [fieldsIn_mapEnums] at hx
    exact Generator.member_asFlags (hread x hx).flags _

/-- **Every structure shows the fields of a message as they were read**, but for the maps. -/
theorem shows_of_at {ds : List Declaration} {path : List Ident} {ident : Ident} {members : List Member}
    (hparse : Schema.parse source = .ok s) (h : (s.lower source.toList).result = .ok low)
    (hds : low.schema.declarations.result = .ok ds) (hat : At ds path (.struct ident members)) :
    ∃ t ∈ s.typesIn, ∃ m, t.type = .message m ∧ Ident.AreOf t.module path ∧
      Ident.ofName? m.name = some ident ∧
      List.Forall₂ ((Generator.ofSchema low.schema).Shows t.fullName t.module)
        (m.fields.filter Field.isSingle) members := by
  obtain ⟨hgenerator, hdeclarations⟩ := declarations_lower hparse h
  rw [hdeclarations] at hds
  obtain ⟨u, hu, hpath, hd⟩ := exists_type_of_at hds hat rfl
  rw [typesIn_mapEnums] at hu
  obtain ⟨⟨scope, module, type⟩, ht, rfl⟩ := List.mem_map.mp hu
  cases type with
  | enum e =>
      have hdefinition := (Generator.definitionOf_inv hd).2
      cases hstorage : (EnumDef.asFlags e).storage <;>
        simp [PlacedType.definition, PlacedType.mapEnums, TypeDef.mapEnums, TypeDef.definition,
          EnumDef.definition, hstorage, definition?] at hdefinition
  | message m =>
      have hread : ∀ f ∈ m.fields, f.flags = none := fun f hf =>
        ((written_parse hparse).of_fieldsIn _ (mem_fieldsIn_of_typesIn ht rfl hf)).flags
      have hstruct : ((Generator.ofSchema low.schema).structOf (joinName scope m.name) module
          (m.mapEnums EnumDef.asFlags)).result = .ok (.struct ident members) := by
        have hname : (m.mapEnums EnumDef.asFlags).name = m.name := by rw [Message.mapEnums_eq]
        rw [hgenerator, ← hname]
        exact hd
      rw [Message.mapEnums_eq] at hstruct
      obtain ⟨i, xs, heq, hident, hshows⟩ := Generator.structOf_shows hstruct hread
      cases heq
      exact ⟨_, ht, m, rfl, hpath, hident, hshows⟩

end Schema

-- ── Identifiers in the accessors ─────────────────────────────────────────────────

/-- The names that the identifiers of the fields of a structure are made of. -/
def Message.memberNames (m : Message) : List String :=
  (m.fields.filter Field.isSingle).map fun f => snakeCase f.name

/-- **The fields of a structure have different identifiers if and only if the names of the fields of its
    message, in snake case and without the maps, are apart; its methods have different names if and only if
    its fields are apart.** -/
theorem accessorsOf_methods_nodup {source text : String} (h : (accessorsOf source).result = .ok text) :
    ∃ s low ds, Schema.parse source = .ok s ∧ (lower source).result = .ok low ∧
      low.schema.declarations.result = .ok ds ∧
      text = Schema.accessorsHeader ++ CodeTree.renderAll (allCode ds) ++ "\n" ∧
      ∀ path ident members, At ds path (.struct ident members) →
        ∃ t ∈ s.typesIn, ∃ m, t.type = .message m ∧ Ident.AreOf t.module path ∧
          Ident.ofName? m.name = some ident ∧
          List.Forall₂ ((Generator.ofSchema low.schema).Shows t.fullName t.module)
            (m.fields.filter Field.isSingle) members ∧
          ((members.map fun x => x.ident.text).Nodup ↔ Ident.Apart m.memberNames) ∧
          (((structMethods members).map fun x => x.ident.text).Nodup ↔ Member.Apart members) := by
  obtain ⟨low, ds, hlow, hds, htext⟩ := accessorsOf_inv h
  obtain ⟨s, hparse, hlower⟩ := lower_inv hlow
  refine ⟨s, low, ds, hparse, hlow, hds, htext, fun path ident members hat => ?_⟩
  obtain ⟨t, ht, m, hm, hpath, hident, hshows⟩ := Schema.shows_of_at hparse hlower hds hat
  refine ⟨t, ht, m, hm, hpath, hident, hshows, ?_, Member.nodup_methods_iff members⟩
  have hnames : Ident.AreOf m.memberNames (members.map Member.ident) := by
    rw [Message.memberNames, Ident.AreOf, List.forall₂_map_left_iff, List.forall₂_map_right_iff]
    exact hshows.imp fun _ _ hshow => hshow.name
  rw [← Ident.nodup_textOf_iff, ← Ident.texts_areOf hnames, List.map_map]
  rfl

/-- The identifiers of the fields of a structure and the names of its methods. -/
def Declaration.memberNames? : Declaration → Option (List String × List String)
  | struct _ members =>
    some (members.map fun x => x.ident.text, (structMethods members).map fun x => x.ident.text)
  | _ => none

theorem Declaration.memberNames?_inv {d : Declaration} {names : List String × List String}
    (h : d.memberNames? = some names) :
    ∃ ident members, d = .struct ident members ∧
      (members.map fun x => x.ident.text) = names.1 ∧
      ((structMethods members).map fun x => x.ident.text) = names.2 := by
  cases d <;> cases h
  exact ⟨_, _, rfl, rfl, rfl⟩

/-- The names in the structures declared for a source that has no package. -/
def memberNamesOf? (source : String) : Option (List (Option (List String × List String))) :=
  (lower source).result.toOption.bind fun low =>
    low.schema.declarations.result.toOption.map fun ds => ds.map Declaration.memberNames?

theorem memberNamesOf?_inv {source : String} {names : List (Option (List String × List String))}
    (h : memberNamesOf? source = some names) :
    ∃ low ds, (lower source).result = .ok low ∧ low.schema.declarations.result = .ok ds ∧
      ds.map Declaration.memberNames? = names :=
  exists_declarations h

/-- A message with fields of three kinds. -/
def plainFields : String :=
  "message Hart \x7b\n" ++
  "  uint32 mode = 1;\n" ++
  "  map<string, uint32> modes = 2;\n" ++
  "  repeated Hart next = 3;\n" ++
  "\x7d\n"

/-- Fields with different names whose methods meet: in snake case, with `new`, a setter with a field, and a
    setter with a count. -/
def meetingFields : String :=
  "message A \x7b int32 fooBar = 1; int32 foo_bar = 2; \x7d\n" ++
  "message B \x7b bool new = 1; \x7d\n" ++
  "message C \x7b bool x = 1; bool set_x = 2; \x7d\n" ++
  "message D \x7b repeated bool set = 1; bool len = 2; \x7d\n"

/-- The names of the members and methods of these structures, and of the fields that meet. -/
theorem memberNames_computed :
    memberNamesOf? plainFields = some [some (["mode", "next"],
      ["new", "mode", "set_mode", "clear_mode",
        "next", "next_len", "add_next", "mutable_next", "clear_next"])] ∧
    memberNamesOf? meetingFields = some [
      some (["foo_bar", "foo_bar"], ["new", "foo_bar", "set_foo_bar", "clear_foo_bar",
        "foo_bar", "set_foo_bar", "clear_foo_bar"]),
      some (["new"], ["new", "new", "set_new", "clear_new"]),
      some (["x", "set_x"], ["new", "x", "set_x", "clear_x", "set_x", "set_set_x", "clear_set_x"]),
      some (["set", "len"], ["new", "set", "set_len", "add_set", "mutable_set", "clear_set",
        "len", "set_len", "clear_len"])] ∧
    (Schema.parse meetingFields).toOption.map (fun s => s.fieldsIn.map fun x => (x.1, x.2.name)) =
      some [("A", "fooBar"), ("A", "foo_bar"), ("B", "new"), ("C", "x"), ("C", "set_x"), ("D", "set"),
        ("D", "len")] := by
  rw [memberNamesOf?, memberNamesOf?, lower_eq, lower_eq, Schema.parse_eq]
  delta plainFields meetingFields
  simp only [String.toList_append, String.reduceToList]
  decide +kernel

/-- The structure of that message has two fields with different names, which are therefore apart in snake
    case, and nine methods with different names. -/
theorem accessorsOf_methods_nodup_plainFields :
    ∃ s low ds ident members, Schema.parse plainFields = .ok s ∧ (lower plainFields).result = .ok low ∧
      low.schema.declarations.result = .ok ds ∧ At ds [] (.struct ident members) ∧
      Member.Apart members ∧ (structMethods members).length = 9 ∧
      ∃ t ∈ s.typesIn, ∃ m, t.type = .message m ∧ Ident.Apart m.memberNames := by
  obtain ⟨low, ds, hlow, hds, hmap⟩ := memberNamesOf?_inv memberNames_computed.1
  obtain ⟨text, h⟩ := accessorsOf_ok hlow hds
  obtain ⟨d, rfl, hd⟩ := List.map_eq_singleton_iff.mp hmap
  obtain ⟨ident, members, rfl, hfields, hmethods⟩ := Declaration.memberNames?_inv hd
  have hat : At [.struct ident members] [] (.struct ident members) := .here (List.mem_singleton_self _)
  obtain ⟨s, low', ds', hparse, hlow', hds', -, hstructs⟩ := accessorsOf_methods_nodup h
  rw [hlow] at hlow'
  cases hlow'
  rw [hds] at hds'
  cases hds'
  obtain ⟨t, ht, m, hm, -, -, -, hstorage, hapart⟩ := hstructs [] ident members hat
  refine ⟨s, low, _, ident, members, hparse, hlow, hds, hat, hapart.mp ?_, ?_, t, ht, m, hm, hstorage.mp ?_⟩
  · rw [hmethods]
    decide
  · have hlength := congrArg List.length hmethods
    rwa [List.length_map] at hlength
  · rw [hfields]
    decide

/-- Each of these structures has two methods with one name, and one has two such fields, though the fields of
    each message have different names. -/
theorem accessorsOf_methods_clash :
    ∃ text s low ds, (accessorsOf meetingFields).result = .ok text ∧
      Schema.parse meetingFields = .ok s ∧ (lower meetingFields).result = .ok low ∧
      low.schema.declarations.result = .ok ds ∧
      (s.fieldsIn.map fun x => (x.1, x.2.name)).Nodup ∧ ds.length = 4 ∧
      (∃ ident members, At ds [] (.struct ident members) ∧ ¬ (members.map fun x => x.ident.text).Nodup) ∧
      ∀ d ∈ ds, ∃ ident members, d = .struct ident members ∧
        ¬ ((structMethods members).map fun x => x.ident.text).Nodup := by
  obtain ⟨-, hnames, hread⟩ := memberNames_computed
  obtain ⟨low, ds, hlow, hds, hmap⟩ := memberNamesOf?_inv hnames
  obtain ⟨text, h⟩ := accessorsOf_ok hlow hds
  obtain ⟨s, hparse, -⟩ := lower_inv hlow
  rw [hparse] at hread
  have hfields : (s.fieldsIn.map fun x => (x.1, x.2.name)) = _ := Option.some.inj hread
  refine ⟨text, s, low, ds, h, hparse, hlow, hds, ?_, ?_, ?_, fun d hd => ?_⟩
  · rw [hfields]
    decide
  · have hlength := congrArg List.length hmap
    rwa [List.length_map] at hlength
  · obtain ⟨d, rest, rfl, hd, -⟩ := List.map_eq_cons_iff.mp hmap
    obtain ⟨ident, members, rfl, hfields, -⟩ := Declaration.memberNames?_inv hd
    refine ⟨ident, members, .here (List.mem_cons_self ..), ?_⟩
    rw [hfields]
    decide
  · have hclash : ∀ names ∈ ds.map Declaration.memberNames?, ∃ x, names = some x ∧ ¬ x.2.Nodup := by
      rw [hmap]
      simp
    obtain ⟨names, hd, hnodup⟩ := hclash _ (List.mem_map_of_mem hd)
    obtain ⟨ident, members, rfl, -, hmethods⟩ := Declaration.memberNames?_inv hd
    exact ⟨ident, members, rfl, hmethods ▸ hnodup⟩

end FlagSchema
