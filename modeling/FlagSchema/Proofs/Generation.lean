import FlagSchema.Proofs.Discriminants
import FlagSchema.Proofs.Offences
import FlagSchema.Proofs.Texts

/-!
# Why no accessors are generated

Accessors are generated for every schema that can be lowered unless something is missing: a value of a plain
enum, or the type that a field names. The error tells the first that lacks something, in the order in which the
declarations are made. Every identifier that is made on the way can be made, as long as no name of the schema
has a dot in it; the package may have dots.

* **`Emitted`**, **`Schema.emitted`**: what the generator looks at, in order.
* **`Emitted.Lacks`**: what is missing, said without the computations.
* **`Schema.Undotted`**: names without dots.
* **`Generating.FailsAs`**: a computation fails as the first of some things that lacks something.
* **`accessorsOf_lacks`**: accessors are generated where nothing is missing, and else the error tells what is.
-/

namespace FlagSchema

/-- Something that the generator looks at: an enum of a scope, or a field of a message. -/
inductive Emitted where
  | enum (scope : String) (e : EnumDef)
  | field (message : String) (f : Field)

/-- An enum that is neither marked as a set of flags nor stored as one. -/
def EnumDef.IsPlain (e : EnumDef) : Prop := e.marksFlags = false ∧ e.storage = none

namespace Emitted

/-- A plain enum lacks a value, or a field lacks the type that it names. -/
inductive Lacks (symbols : Symbols) : Emitted → SchemaError → Prop where
  | emptyEnum {scope : String} {e : EnumDef} (plain : e.IsPlain) (empty : e.values = []) :
      Lacks symbols (.enum scope e) (.emptyEnum (joinName scope e.name))
  | unresolvedType {message written : String} {f : Field} (type : f.type = .single (.named written))
      (unresolved : symbols.resolve? message written = none) :
      Lacks symbols (.field message f) (.unresolvedType (joinName message f.name) written)

/-- An enum that is not stored as a set of flags lacks nothing if it is marked or has a value. -/
theorem forall_not_lacks_enum_iff {symbols : Symbols} {scope : String} {e : EnumDef} (h : e.storage = none) :
    (∀ err, ¬ (Emitted.enum scope e).Lacks symbols err) ↔ (e.marksFlags = false → e.values ≠ []) := by
  constructor
  · exact fun hnone hmark hempty => hnone _ (.emptyEnum ⟨hmark, h⟩ hempty)
  · intro hvalues err hlacks
    cases hlacks with
    | emptyEnum plain empty => exact hvalues plain.1 empty

/-- A field lacks nothing if every type that it names is declared. -/
theorem forall_not_lacks_field_iff {symbols : Symbols} {message : String} {f : Field} :
    (∀ err, ¬ (Emitted.field message f).Lacks symbols err) ↔
      ∀ written, f.type = .single (.named written) → symbols.resolve? message written ≠ none := by
  constructor
  · exact fun hnone written htype hresolve => hnone _ (.unresolvedType htype hresolve)
  · intro hresolve err hlacks
    cases hlacks with
    | unresolvedType type unresolved => exact hresolve _ type unresolved

/-- The same with its enum changed, if it is one. -/
def mapEnum (change : EnumDef → EnumDef) : Emitted → Emitted
  | .enum scope e    => .enum scope (change e)
  | .field message f => .field message f

end Emitted

namespace Message

mutual

/-- What the generator looks at in a message found in a scope: its fields, its enums, and the messages nested
    in it. -/
def emitted (scope : String) : Message → List Emitted
  | ⟨name, _, fields, messages, enums, _, _⟩ =>
    fields.map (.field (joinName scope name)) ++ enums.map (.enum (joinName scope name)) ++
      allEmitted (joinName scope name) messages

/-- What it looks at in several messages of a scope. -/
def allEmitted (scope : String) : List Message → List Emitted
  | []      => []
  | m :: ms => emitted scope m ++ allEmitted scope ms

end

theorem allEmitted_eq (scope : String) (ms : List Message) :
    allEmitted scope ms = ms.flatMap (emitted scope) := by
  induction ms with
  | nil => rfl
  | cons m ms ih => rw [allEmitted, ih, List.flatMap_cons]

theorem emitted_eq (scope : String) (m : Message) :
    emitted scope m = m.fields.map (.field (joinName scope m.name)) ++
      m.enums.map (.enum (joinName scope m.name)) ++ m.messages.flatMap (emitted (joinName scope m.name)) := by
  cases m
  rw [emitted, allEmitted_eq]

theorem emitted_mapEnums (change : EnumDef → EnumDef) (scope : String) (m : Message) :
    emitted scope (mapEnums change m) = (emitted scope m).map (Emitted.mapEnum change) := by
  induction m using nested_induction generalizing scope with
  | step m ih =>
      rw [emitted_eq scope m, List.map_append, List.map_append, List.map_map, List.map_map, List.map_flatMap,
        ← List.flatMap_congr fun i hi => ih i hi _, emitted_eq]
      simp only [mapEnums_eq, List.flatMap_map, List.map_map, Emitted.mapEnum, Function.comp_def]

/-- What a message emits are its enums and its fields. -/
theorem forall_emitted_iff {p : Emitted → Prop} {scope : String} {m : Message} :
    (∀ x ∈ m.emitted scope, p x) ↔
      (∀ x ∈ m.enumsIn scope, p (.enum x.1 x.2)) ∧ ∀ x ∈ m.fieldsIn scope, p (.field x.1 x.2) := by
  induction m using nested_induction generalizing scope with
  | step m ih =>
      have hnested : (∀ i ∈ m.messages, ∀ x ∈ i.emitted (joinName scope m.name), p x) ↔
          (∀ i ∈ m.messages, ∀ x ∈ i.enumsIn (joinName scope m.name), p (.enum x.1 x.2)) ∧
          ∀ i ∈ m.messages, ∀ x ∈ i.fieldsIn (joinName scope m.name), p (.field x.1 x.2) := by
        rw [← forall₂_and]
        exact forall₂_congr fun i hi => ih i hi
      rw [emitted_eq, enumsIn_eq, fieldsIn_eq]
      simp only [List.forall_mem_append, List.forall_mem_map, List.forall_mem_flatMap, hnested]
      tauto

end Message

namespace Schema

/-- What the generator looks at in a schema: the top-level enums, then the messages. -/
def emitted (s : Schema) : List Emitted :=
  s.enums.map (.enum s.scope) ++ Message.allEmitted s.scope s.messages

theorem emitted_mapEnums (change : EnumDef → EnumDef) (s : Schema) :
    (s.mapEnums change).emitted = s.emitted.map (Emitted.mapEnum change) := by
  rw [emitted, emitted, Message.allEmitted_eq, Message.allEmitted_eq, mapEnums, Message.mapAllEnums_eq,
    List.flatMap_map, List.map_append, List.map_map, List.map_map, List.map_flatMap]
  exact congrArg _ (List.flatMap_congr fun m _ => Message.emitted_mapEnums change _ m)

end Schema

-- ── Failing ──────────────────────────────────────────────────────────────────────

/-- A computation of the generator fails as the first of some things that lacks something, and for no other
    reason. -/
def Generating.FailsAs {α : Type} (symbols : Symbols) (t : Generating α) (xs : List Emitted) : Prop :=
  ∀ err, t.result = .error err ↔ ∃ e, err = .schema e ∧ FirstOffence (Emitted.Lacks symbols) xs e

namespace Generating.FailsAs

variable {α β : Type} {symbols : Symbols} {t : Generating α} {f : α → Generating β} {xs ys : List Emitted}

theorem of_ok {a : α} (h : t.result = .ok a) : FailsAs symbols t [] := by
  intro err
  rw [h]
  exact ⟨nofun, fun ⟨_, _, hfirst⟩ => by cases hfirst⟩

theorem pure (a : α) : FailsAs symbols (Pure.pure a) [] := of_ok (Traced.result_pure a)

/-- A computation that succeeds has found nothing that lacks something. -/
theorem forall_not_lacks {a : α} (h : FailsAs symbols t xs) (ha : t.result = .ok a) :
    ∀ x ∈ xs, ∀ e, ¬ x.Lacks symbols e := by
  refine FirstOffence.forall_not_iff.mp fun e hfirst => ?_
  have herror := (h _).mpr ⟨e, rfl, hfirst⟩
  rw [ha] at herror
  cases herror

/-- A computation that can look at nothing which lacks something does not fail. -/
theorem exists_ok (h : FailsAs symbols t []) : ∃ a, t.result = .ok a := by
  rw [Traced.exists_ok_iff]
  intro err herr
  obtain ⟨e, -, hfirst⟩ := (h err).mp herr
  cases hfirst

/-- Two computations in a row look at what the first does and then at what the second does. -/
theorem bind (ht : FailsAs symbols t xs) (hf : ∀ a, t.result = .ok a → FailsAs symbols (f a) ys) :
    FailsAs symbols (t >>= f) (xs ++ ys) := by
  intro err
  rw [Traced.bind_eq_error]
  constructor
  · rintro (herr | ⟨a, ha, herr⟩)
    · obtain ⟨e, rfl, hfirst⟩ := (ht err).mp herr
      exact ⟨e, rfl, FirstOffence.append_iff.mpr (.inl hfirst)⟩
    · obtain ⟨e, rfl, hfirst⟩ := (hf a ha err).mp herr
      exact ⟨e, rfl, FirstOffence.append_iff.mpr (.inr ⟨ht.forall_not_lacks ha, hfirst⟩)⟩
  · rintro ⟨e, rfl, hfirst⟩
    rcases FirstOffence.append_iff.mp hfirst with hfirst | ⟨hnone, hfirst⟩
    · exact .inl ((ht _).mpr ⟨e, rfl, hfirst⟩)
    · have hok : ∃ a, t.result = .ok a := by
        rw [Traced.exists_ok_iff]
        intro err' herr'
        obtain ⟨e', -, hfirst'⟩ := (ht err').mp herr'
        exact FirstOffence.forall_not_iff.mpr hnone e' hfirst'
      obtain ⟨a, ha⟩ := hok
      exact .inr ⟨a, ha, (hf a ha _).mpr ⟨e, rfl, hfirst⟩⟩

/-- The first of two computations cannot fail. -/
theorem nil_bind (ht : FailsAs symbols t []) (hf : ∀ a, t.result = .ok a → FailsAs symbols (f a) xs) :
    FailsAs symbols (t >>= f) xs := bind ht hf

/-- The second of two computations cannot fail. -/
theorem bind_nil (ht : FailsAs symbols t xs) (hf : ∀ a, t.result = .ok a → FailsAs symbols (f a) []) :
    FailsAs symbols (t >>= f) xs := by
  have h := bind ht hf
  rwa [List.append_nil] at h

/-- One computation for each element looks at what each of them does, in order. -/
theorem each {f : α → Generating β} {g : α → List Emitted} {as : List α}
    (h : ∀ a ∈ as, FailsAs symbols (f a) (g a)) : FailsAs symbols (Traced.each f as) (as.flatMap g) := by
  induction as with
  | nil => exact pure _
  | cons a as ih =>
      obtain ⟨ha, has⟩ := List.forall_mem_cons.mp h
      exact ha.bind fun _ _ => (ih has).bind_nil fun _ _ => pure _

/-- Computations that cannot fail cannot fail one after another. -/
theorem each_nil {f : α → Generating β} {as : List α} (h : ∀ a ∈ as, FailsAs symbols (f a) []) :
    FailsAs symbols (Traced.each f as) [] := by
  have hall := each (g := fun _ => []) h
  rwa [List.flatMap_eq_nil_iff.mpr fun _ _ => rfl] at hall

/-- Looking at something that lacks nothing is no reason to fail. -/
theorem of_nil {x : Emitted} (h : FailsAs symbols t []) (hx : ∀ e, ¬ x.Lacks symbols e) :
    FailsAs symbols t [x] := by
  obtain ⟨a, ha⟩ := h.exists_ok
  intro err
  rw [ha]
  refine ⟨nofun, fun ⟨e, _, hfirst⟩ => ?_⟩
  cases hfirst with
  | here hlacks => exact absurd hlacks (hx e)
  | there _ hrest => cases hrest

/-- Failing for what one thing lacks. -/
theorem of_lacks {x : Emitted} {e : SchemaError} (h : t.result = .error (.schema e))
    (hx : ∀ e', x.Lacks symbols e' ↔ e' = e) : FailsAs symbols t [x] := by
  intro err
  rw [h]
  constructor
  · intro herr
    cases herr
    exact ⟨e, rfl, .here ((hx e).mpr rfl)⟩
  · rintro ⟨e', rfl, hfirst⟩
    cases hfirst with
    | here hlacks => rw [(hx e').mp hlacks]
    | there _ hrest => cases hrest

end Generating.FailsAs

-- ── Names without dots ───────────────────────────────────────────────────────────

/-- A name has no dot. -/
def IsUndotted (name : String) : Prop := '.' ∉ name.toList

instance (name : String) : Decidable (IsUndotted name) := inferInstanceAs (Decidable ('.' ∉ name.toList))

/-- A capital in lower case is a small letter. -/
theorem toNat_toLower {c : Char} (hupper : c.isUpper = true) : 97 ≤ c.toLower.toNat ∧ c.toLower.toNat ≤ 122 := by
  have hbounds : c.val ≥ 'A'.val ∧ c.val ≤ 'Z'.val := of_decide_eq_true hupper
  have hlower : c.toLower.toNat = (c.toNat + 32) % 2 ^ 32 := by
    unfold Char.toLower
    rw [dif_pos hbounds]
    rfl
  have hlow : 65 ≤ c.toNat := hbounds.1
  have hhigh : c.toNat ≤ 90 := hbounds.2
  omega

theorem dot_ne_toLower {c : Char} (hupper : c.isUpper = true) : '.' ≠ c.toLower := by
  intro heq
  have hlow := (toNat_toLower hupper).1
  rw [← heq] at hlow
  exact absurd hlow (by decide)

theorem dot_notMem_snakeCaseFrom (afterSmall : Bool) {cs : List Char} (h : '.' ∉ cs) :
    '.' ∉ snakeCaseFrom afterSmall cs := by
  induction cs generalizing afterSmall with
  | nil => exact List.not_mem_nil
  | cons c cs ih =>
      obtain ⟨hc, hcs⟩ := not_or.mp (fun hmem => h (List.mem_cons.mpr hmem))
      rw [snakeCaseFrom]
      split
      · next hupper =>
          have hlower : '.' ≠ c.toLower := dot_ne_toLower hupper
          have hfront : '.' ∉ if afterSmall then ['_'] else [] := by split <;> decide
          intro hmem
          rcases List.mem_append.mp hmem with hmem | hmem
          · exact hfront hmem
          · rcases List.mem_cons.mp hmem with heq | hmem
            · exact hlower heq
            · exact ih false hcs hmem
      · intro hmem
        rcases List.mem_cons.mp hmem with heq | hmem
        · exact hc heq
        · exact ih _ hcs hmem

theorem IsUndotted.snakeCase {name : String} (h : IsUndotted name) : IsUndotted (snakeCase name) := by
  rw [IsUndotted, FlagSchema.snakeCase, String.toList_ofList]
  exact dot_notMem_snakeCaseFrom false h

/-- The segments of a name have no dots. -/
theorem isUndotted_of_mem_nameSegments {name segment : String} (h : segment ∈ nameSegments name) :
    IsUndotted segment := by
  obtain ⟨cs, hcs, rfl⟩ := List.mem_map.mp h
  rw [IsUndotted, String.toList_ofList]
  exact Text.notMem_of_mem_splitAt (List.mem_filter.mp hcs).1

/-- A name without a dot has an identifier. -/
theorem IsUndotted.failsAs {symbols : Symbols} {name : String} (h : IsUndotted name) :
    Generating.FailsAs symbols (identOf name) [] := by
  have hcontains : name.toList.contains '.' = false := by
    rw [← Bool.not_eq_true]
    exact fun hmem => h (List.contains_iff_mem.mp hmem)
  have hident : ∃ i, Ident.ofName? name = some i := by
    unfold Ident.ofName?
    split
    · exact ⟨_, rfl⟩
    · rw [hcontains]
      exact ⟨_, rfl⟩
  obtain ⟨i, hi⟩ := hident
  have hok : (identOf name).result = .ok i := by
    rw [identOf, hi]
    rfl
  exact .of_ok hok

/-- The names that a type declares have no dots: its own, those of the values of an enum, and those of the
    fields of a message but for the maps. Nor has anything been lowered in it but enums. -/
def TypeDef.IsReady : TypeDef → Prop
  | .message m => IsUndotted m.name ∧
      ∀ f ∈ m.fields, f.flags = none ∧ (f.isSingle = true → IsUndotted f.name)
  | .enum e => IsUndotted e.name ∧ e.marksFlags = false ∧ ∀ v ∈ e.values, IsUndotted v.name

theorem TypeDef.IsReady.name {type : TypeDef} (h : type.IsReady) : IsUndotted type.name := by
  cases type with
  | message m => exact h.1
  | enum e => exact h.1

/-- The modules of a type have names of a sort, if the types around have names of it and so has each of these in snake
    case. -/
theorem Message.forall_mem_module {N : String → Prop} (hN : ∀ name, N name → N (snakeCase name)) {scope : String}
    {module : List String} {m : Message} {t : PlacedType} (htypes : ∀ t ∈ m.typesIn scope module, N t.type.name)
    (hmodule : ∀ n ∈ module, N n) (ht : t ∈ m.typesIn scope module) : ∀ n ∈ t.module, N n := by
  induction m using nested_induction generalizing scope module with
  | step m ih =>
      rw [typesIn_eq] at htypes ht
      have hself : N m.name :=
        htypes ⟨scope, module, .message m⟩ (List.mem_append_right _ (List.mem_singleton_self _))
      have hinner : ∀ n ∈ module ++ [snakeCase m.name], N n :=
        List.forall_mem_append.mpr ⟨hmodule, List.forall_mem_singleton.mpr (hN _ hself)⟩
      rcases List.mem_append.mp ht with ht | ht
      · rcases List.mem_append.mp ht with ht | ht
        · obtain ⟨e, -, rfl⟩ := List.mem_map.mp ht
          exact hinner
        · obtain ⟨i, hi, ht⟩ := List.mem_flatMap.mp ht
          refine ih i hi (fun u hu => htypes u ?_) hinner ht
          exact List.mem_append_left _ (List.mem_append_right _ (List.mem_flatMap.mpr ⟨i, hi, hu⟩))
      · rw [List.mem_singleton.mp ht]
        exact hmodule

namespace Schema

/-- A schema whose types are ready. -/
def IsReady (s : Schema) : Prop := ∀ t ∈ s.typesIn, t.type.IsReady

variable {s : Schema}

theorem forall_mem_module {N : String → Prop} (hN : ∀ name, N name → N (snakeCase name))
    (htypes : ∀ t ∈ s.typesIn, N t.type.name) (hroot : ∀ n ∈ s.rootModule, N n) {t : PlacedType}
    (ht : t ∈ s.typesIn) : ∀ n ∈ t.module, N n := by
  rw [typesIn, Message.allTypesIn_eq] at htypes ht
  rcases List.mem_append.mp ht with ht | ht
  · obtain ⟨e, -, rfl⟩ := List.mem_map.mp ht
    exact hroot
  · obtain ⟨m, hm, ht⟩ := List.mem_flatMap.mp ht
    refine Message.forall_mem_module hN (fun u hu => htypes u ?_) hroot ht
    exact List.mem_append_right _ (List.mem_flatMap.mpr ⟨m, hm, hu⟩)

theorem isUndotted_rootModule {name : String} (h : name ∈ s.rootModule) : IsUndotted name :=
  isUndotted_of_mem_nameSegments h

theorem IsReady.module (h : s.IsReady) {t : PlacedType} (ht : t ∈ s.typesIn) : ∀ n ∈ t.module, IsUndotted n := by
  have hsnake : ∀ name, IsUndotted name → IsUndotted (snakeCase name) := fun _ => IsUndotted.snakeCase
  exact forall_mem_module hsnake (fun u hu => (h u hu).name) (fun _ => isUndotted_rootModule) ht

end Schema

-- ── What the generator looks at ──────────────────────────────────────────────────

namespace Generator

variable {s : Schema} {scope message : String} {module : List String}

/-- There is a path to every type. -/
theorem failsAs_typePath (hs : s.IsReady) {fullName : String} {t : PlacedType}
    (ht : s.typeNamed? fullName = some t) :
    Generating.FailsAs (Symbols.ofSchema s) ((ofSchema s).typePath module fullName) [] := by
  obtain ⟨hmem, rfl⟩ := Schema.typeNamed?_inv ht
  have hname : IsUndotted (lastSegment t.fullName) := by
    rw [PlacedType.fullName, lastSegment_joinName _ (hs t hmem).name]
    exact (hs t hmem).name
  have hmodules : ∀ n ∈ ((ofSchema s).modules.lookup t.fullName).getD [], IsUndotted n := by
    show ∀ n ∈ (s.moduleTable.lookup t.fullName).getD [], IsUndotted n
    rw [Schema.lookup_moduleTable, ht]
    exact hs.module hmem
  exact hname.failsAs.nil_bind fun _ _ =>
    (Generating.FailsAs.each_nil fun n hn => (hmodules n hn).failsAs).nil_bind fun _ _ => .pure _

/-- What a field holds is missing exactly if it lacks its type. -/
theorem failsAs_holding (hs : s.IsReady) {f : Field} (hflags : f.flags = none) :
    Generating.FailsAs (Symbols.ofSchema s) ((ofSchema s).holding message module f) [.field message f] := by
  unfold holding
  rw [hflags]
  cases htype : f.type with
  | map key value =>
      refine .of_nil (.of_ok rfl) fun e hlacks => ?_
      cases hlacks with
      | unresolvedType type => rw [htype] at type; cases type
  | single type =>
      cases type with
      | scalar width =>
          refine .of_nil (.pure _) fun e hlacks => ?_
          cases hlacks with
          | unresolvedType type => rw [htype] at type; cases type
      | named written =>
          have hsymbols : (ofSchema s).symbols = Symbols.ofSchema s := rfl
          dsimp only
          rw [hsymbols]
          cases hresolve : (Symbols.ofSchema s).resolve? message written with
          | none =>
              refine .of_lacks rfl fun e => ?_
              constructor
              · intro hlacks
                cases hlacks with
                | unresolvedType type => rw [htype] at type; cases type; rfl
              · rintro rfl
                exact .unresolvedType htype hresolve
          | some x =>
              obtain ⟨fullName, definition⟩ := x
              obtain ⟨t, ht, -⟩ := Schema.exists_typeNamed hresolve
              refine .of_nil ((failsAs_typePath hs ht).nil_bind fun _ _ => .pure _) fun e hlacks => ?_
              cases hlacks with
              | unresolvedType type unresolved =>
                  rw [htype] at type
                  cases type
                  rw [hresolve] at unresolved
                  cases unresolved

/-- The member for a field is missing exactly if the field lacks its type. -/
theorem failsAs_member (hs : s.IsReady) {f : Field} (hflags : f.flags = none)
    (hname : f.isSingle = true → IsUndotted f.name) :
    Generating.FailsAs (Symbols.ofSchema s) ((ofSchema s).member message module f) [.field message f] := by
  refine (failsAs_holding hs hflags).bind_nil fun holding hholding => ?_
  cases holding with
  | none => exact .pure _
  | some holding =>
      have hsingle : f.isSingle = true := (isSome_of_holding hholding hflags).symm
      refine (hname hsingle).snakeCase.failsAs.nil_bind fun ident _ => ?_
      split
      · exact (Generating.FailsAs.of_ok rfl).nil_bind fun _ _ => .pure _
      · exact .pure _

/-- The structure for a message looks at its fields. -/
theorem failsAs_structOf (hs : s.IsReady) {m : Message} (hm : (TypeDef.message m).IsReady) :
    Generating.FailsAs (Symbols.ofSchema s) ((ofSchema s).structOf message module m)
      (m.fields.map (.field message)) := by
  refine hm.1.failsAs.nil_bind fun _ _ => ?_
  have hmembers : ∀ f ∈ m.fields, Generating.FailsAs (Symbols.ofSchema s)
      ((ofSchema s).member message module f) [.field message f] :=
    fun f hf => failsAs_member hs (hm.2 f hf).1 (hm.2 f hf).2
  have hfields := Generating.FailsAs.each hmembers
  rw [← List.map_eq_flatMap] at hfields
  exact hfields.bind_nil fun _ _ => .pure _

/-- Variants can be made of values whose names have no dots. -/
theorem failsAs_variants {symbols : Symbols} {fullName : String} {seen : List Int} {vs : List EnumValue}
    (h : ∀ v ∈ vs, IsUndotted v.name) : Generating.FailsAs symbols (variants fullName seen vs) [] := by
  induction vs generalizing seen with
  | nil => exact .pure _
  | cons v vs ih =>
      obtain ⟨hv, hvs⟩ := List.forall_mem_cons.mp h
      rw [variants]
      split
      · exact (Generating.FailsAs.of_ok rfl).nil_bind fun _ _ => ih hvs
      · exact hv.failsAs.nil_bind fun _ _ => (ih hvs).nil_bind fun _ _ => .pure _

/-- The definition for an enum is missing exactly if the enum lacks a value. -/
theorem failsAs_enumOrFlagsOf {symbols : Symbols} {e : EnumDef} (he : (TypeDef.enum e).IsReady) :
    Generating.FailsAs symbols (enumOrFlagsOf scope e) [.enum scope e] := by
  obtain ⟨hname, hmark, hvalues⟩ := he
  unfold enumOrFlagsOf
  cases hstorage : e.storage with
  | some width =>
      refine .of_nil (hname.failsAs.nil_bind fun _ _ => ?_) fun err hlacks => ?_
      · have hidents : ∀ v ∈ e.values.filter fun v => v.number ≠ 0, IsUndotted v.name :=
          fun v hv => hvalues v (List.mem_filter.mp hv).1
        exact (Generating.FailsAs.each_nil fun v hv => (hidents v hv).failsAs).nil_bind fun _ _ => .pure _
      · cases hlacks with
        | emptyEnum plain =>
            have hnone := plain.2
            rw [hstorage] at hnone
            cases hnone
  | none =>
      refine hname.failsAs.nil_bind fun ident _ => ?_
      refine (failsAs_variants hvalues).nil_bind fun xs hxs => ?_
      have hfirsts := variants_inv hxs
      cases hempty : e.values with
      | nil =>
          rw [hempty] at hfirsts
          cases hfirsts
          refine .of_lacks rfl fun err => ?_
          constructor
          · intro hlacks
            cases hlacks
            rfl
          · rintro rfl
            exact .emptyEnum ⟨hmark, hstorage⟩ hempty
      | cons v vs =>
          rw [hempty] at hfirsts
          cases hfirsts with
          | cons =>
              refine .of_nil (.pure _) fun err hlacks => ?_
              cases hlacks with
              | emptyEnum plain empty => rw [hempty] at empty; cases empty

theorem failsAs_ofMessages {g : Generator} {symbols : Symbols} {ms : List Message} {f : Message → List Emitted}
    (h : ∀ m ∈ ms, Generating.FailsAs symbols (g.ofMessage scope module m) (f m)) :
    Generating.FailsAs symbols (g.ofMessages scope module ms) (ms.flatMap f) := by
  induction ms with
  | nil => exact .pure _
  | cons m ms ih =>
      obtain ⟨hm, hms⟩ := List.forall_mem_cons.mp h
      exact hm.bind fun _ _ => (ih hms).bind_nil fun _ _ => .pure _

/-- **The declarations for a message look at what the message emits.** -/
theorem failsAs_ofMessage (hs : s.IsReady) {m : Message}
    (hm : ∀ t ∈ m.typesIn scope module, t.type.IsReady) :
    Generating.FailsAs (Symbols.ofSchema s) ((ofSchema s).ofMessage scope module m) (m.emitted scope) := by
  induction m using Message.nested_induction generalizing scope module with
  | step m ih =>
      rw [Message.typesIn_eq] at hm
      have hself : (TypeDef.message m).IsReady :=
        hm ⟨scope, module, .message m⟩ (List.mem_append_right _ (List.mem_singleton_self _))
      have henums : ∀ e ∈ m.enums, (TypeDef.enum e).IsReady := fun e he =>
        hm ⟨joinName scope m.name, module ++ [snakeCase m.name], .enum e⟩
          (List.mem_append_left _ (List.mem_append_left _ (List.mem_map_of_mem he)))
      have hnested : ∀ i ∈ m.messages, Generating.FailsAs (Symbols.ofSchema s)
          ((ofSchema s).ofMessage (joinName scope m.name) (module ++ [snakeCase m.name]) i)
          (i.emitted (joinName scope m.name)) := fun i hi =>
        ih i hi fun t ht =>
          hm t (List.mem_append_left _ (List.mem_append_right _ (List.mem_flatMap.mpr ⟨i, hi, ht⟩)))
      rw [Message.emitted_eq, List.append_assoc]
      obtain ⟨name, position, fields, messages, enums, settings, oneofs⟩ := m
      rw [ofMessage]
      refine (failsAs_structOf hs hself).bind fun _ _ => ?_
      split
      · next hempty =>
          obtain ⟨hnoEnums, hnoMessages⟩ := Bool.and_eq_true_iff.mp hempty
          cases List.isEmpty_iff.mp hnoEnums
          cases List.isEmpty_iff.mp hnoMessages
          exact .pure _
      · have hdefinitions : ∀ e ∈ enums, Generating.FailsAs (Symbols.ofSchema s)
            (enumOrFlagsOf (joinName scope name) e) [.enum (joinName scope name) e] :=
          fun e he => failsAs_enumOrFlagsOf (henums e he)
        have hdeclared := Generating.FailsAs.each hdefinitions
        rw [← List.map_eq_flatMap] at hdeclared
        refine hdeclared.bind fun _ _ => (failsAs_ofMessages hnested).bind_nil fun _ _ => ?_
        exact hself.1.snakeCase.failsAs.nil_bind fun _ _ => .pure _

end Generator

namespace Schema

variable {s : Schema}

/-- Items can be put into modules whose names have no dots. -/
theorem failsAs_nest {symbols : Symbols} {ds : List Declaration} {names : List String}
    (h : ∀ n ∈ names, IsUndotted n) : Generating.FailsAs symbols (nest ds names) [] := by
  induction names with
  | nil => exact .pure _
  | cons n names ih =>
      obtain ⟨hn, hnames⟩ := List.forall_mem_cons.mp h
      exact (ih hnames).nil_bind fun _ _ => hn.failsAs.nil_bind fun _ _ => .pure _

/-- **The declarations for a schema look at what the schema emits.** -/
theorem failsAs_declarations (hs : s.IsReady) :
    Generating.FailsAs (Symbols.ofSchema s) s.declarations s.emitted := by
  have hready := hs
  rw [IsReady, typesIn, Message.allTypesIn_eq] at hready
  have henums : ∀ e ∈ s.enums, (TypeDef.enum e).IsReady := fun e he =>
    hready ⟨s.scope, s.rootModule, .enum e⟩ (List.mem_append_left _ (List.mem_map_of_mem he))
  have hmessages : ∀ m ∈ s.messages, Generating.FailsAs (Symbols.ofSchema s)
      ((Generator.ofSchema s).ofMessage s.scope s.rootModule m) (m.emitted s.scope) := fun m hm =>
    Generator.failsAs_ofMessage hs fun t ht =>
      hready t (List.mem_append_right _ (List.mem_flatMap.mpr ⟨m, hm, ht⟩))
  have hdefinitions : ∀ e ∈ s.enums, Generating.FailsAs (Symbols.ofSchema s)
      (Generator.enumOrFlagsOf s.scope e) [.enum s.scope e] :=
    fun e he => Generator.failsAs_enumOrFlagsOf (henums e he)
  have hdeclared := Generating.FailsAs.each hdefinitions
  rw [← List.map_eq_flatMap] at hdeclared
  rw [emitted, Message.allEmitted_eq]
  refine hdeclared.bind fun _ _ => (Generator.failsAs_ofMessages hmessages).bind_nil fun _ _ => ?_
  exact failsAs_nest fun _ => isUndotted_rootModule

end Schema

-- ── Schemas as they were read ────────────────────────────────────────────────────

/-- The values of an enum that becomes a set of flags are named as the empty set and as those declared. -/
theorem EnumDef.forall_mem_asFlags {N : String → Prop} (hempty : N emptySetName) {e : EnumDef}
    (h : ∀ v ∈ e.values, N v.name) : ∀ v ∈ e.asFlags.values, N v.name := by
  intro v hv
  unfold asFlags at hv
  split at hv
  · rcases List.mem_cons.mp hv with rfl | hv
    · exact hempty
    · obtain ⟨w, hw, i, rfl⟩ := EnumValue.exists_of_mem_asFlags hv
      exact h w hw
  · exact h v hv

/-- Where the same full names stand for something, the same names refer to something. -/
theorem Symbols.resolve?_eq_none_congr {a b : Symbols} (h : ∀ n, a.get? n = none ↔ b.get? n = none)
    (scope name : String) : a.resolve? scope name = none ↔ b.resolve? scope name = none := by
  have hin : ∀ name scope, a.getIn? name scope = none ↔ b.getIn? name scope = none := by
    intro name scope
    rw [getIn?, getIn?, Option.map_eq_none_iff, Option.map_eq_none_iff]
    exact h _
  unfold resolve?
  split
  · exact hin _ _
  · rw [List.findSome?_eq_none_iff, List.findSome?_eq_none_iff]
    exact forall₂_congr fun _ _ => hin _ _

namespace Schema

variable {s : Schema}

theorem typeNamed?_mapEnums {f : EnumDef → EnumDef} (hf : ∀ e, (f e).name = e.name) (s : Schema)
    (fullName : String) :
    (s.mapEnums f).typeNamed? fullName = (s.typeNamed? fullName).map (PlacedType.mapEnums f) := by
  rw [typeNamed?, typeNamed?, typesIn_mapEnums, ← List.map_reverse, List.find?_map]
  simp only [Function.comp_def, PlacedType.fullName_mapEnums hf]

/-- Making enums sets of flags makes no name refer to nothing. -/
theorem resolve?_mapEnums_eq_none_iff (s : Schema) (scope name : String) :
    (Symbols.ofSchema (s.mapEnums EnumDef.asFlags)).resolve? scope name = none ↔
      (Symbols.ofSchema s).resolve? scope name = none := by
  refine Symbols.resolve?_eq_none_congr (fun n => ?_) scope name
  rw [get?_ofSchema, get?_ofSchema, typeNamed?_mapEnums EnumDef.name_asFlags, Option.map_eq_none_iff,
    Option.map_eq_none_iff, Option.map_eq_none_iff]

end Schema

/-- What lacks something lacks it after the enums have become sets of flags, and nothing else does. -/
theorem Emitted.lacks_mapEnum_iff {s : Schema} {x : Emitted} {err : SchemaError} :
    (x.mapEnum EnumDef.asFlags).Lacks (Symbols.ofSchema (s.mapEnums EnumDef.asFlags)) err ↔
      x.Lacks (Symbols.ofSchema s) err := by
  cases x with
  | enum scope e =>
      by_cases hmark : e.marksFlags = true
      · -- a marked enum is not plain, and has a value once it is a set of flags
        constructor
        · intro hlacks
          cases hlacks with
          | emptyEnum plain empty => rw [EnumDef.asFlags, if_pos hmark] at empty; cases empty
        · intro hlacks
          cases hlacks with
          | emptyEnum plain => rw [plain.1] at hmark; cases hmark
      · have hplain : e.asFlags = e := if_neg hmark
        show (Emitted.enum scope e.asFlags).Lacks _ err ↔ _
        rw [hplain]
        constructor
        · intro hlacks
          cases hlacks with
          | emptyEnum plain empty => exact .emptyEnum plain empty
        · intro hlacks
          cases hlacks with
          | emptyEnum plain empty => exact .emptyEnum plain empty
  | field message f =>
      constructor
      · intro hlacks
        cases hlacks with
        | unresolvedType type unresolved =>
            exact .unresolvedType type ((s.resolve?_mapEnums_eq_none_iff _ _).mp unresolved)
      · intro hlacks
        cases hlacks with
        | unresolvedType type unresolved =>
            exact .unresolvedType type ((s.resolve?_mapEnums_eq_none_iff _ _).mpr unresolved)

/-- The names of a schema have no dots: those of its messages, enums and values, and those of its fields but for
    the maps. The package may have dots. -/
structure Schema.Undotted (s : Schema) : Prop where
  types  : ∀ t ∈ s.typesIn, IsUndotted t.type.name
  values : ∀ x ∈ s.enumsIn, ∀ v ∈ x.2.values, IsUndotted v.name
  fields : ∀ x ∈ s.fieldsIn, x.2.isSingle = true → IsUndotted x.2.name

namespace Schema

variable {s : Schema}

/-- A schema that was read is ready once its enums are sets of flags, if its names have no dots. -/
theorem Undotted.isReady (h : s.Undotted) (hfields : ∀ x ∈ s.fieldsIn, x.2.flags = none) :
    (s.mapEnums EnumDef.asFlags).IsReady := by
  intro u hu
  rw [typesIn_mapEnums] at hu
  obtain ⟨⟨scope, module, type⟩, ht, rfl⟩ := List.mem_map.mp hu
  have hname := h.types _ ht
  cases type with
  | message m =>
      show (TypeDef.message (m.mapEnums EnumDef.asFlags)).IsReady
      rw [Message.mapEnums_eq]
      refine ⟨hname, fun f hf => ?_⟩
      have hmem := mem_fieldsIn_of_typesIn ht rfl hf
      exact ⟨hfields _ hmem, h.fields _ hmem⟩
  | enum e =>
      have hvalues := h.values _ (mem_enumsIn_of_typesIn ht rfl)
      have hempty : IsUndotted emptySetName := by decide
      refine ⟨?_, EnumDef.marksFlags_asFlags e, EnumDef.forall_mem_asFlags hempty hvalues⟩
      rw [EnumDef.name_asFlags]
      exact hname

/-- What a schema emits are its enums and its fields. -/
theorem forall_emitted_iff {p : Emitted → Prop} :
    (∀ x ∈ s.emitted, p x) ↔ (∀ x ∈ s.enumsIn, p (.enum x.1 x.2)) ∧ ∀ x ∈ s.fieldsIn, p (.field x.1 x.2) := by
  rw [emitted, enumsIn, fieldsIn, Message.allEmitted_eq, Message.allEnumsIn_eq, Message.allFieldsIn_eq]
  simp only [List.forall_mem_append, List.forall_mem_map, List.forall_mem_flatMap,
    Message.forall_emitted_iff, forall_and, and_assoc]

end Schema

/-- **Accessors fail for nothing but what is missing.** For a source that is lowered and whose names have no
    dots every identifier can be made. The accessors are generated exactly if every enum that is not marked has
    a value and every field that names a type, but for the maps, names a declared one; else the error is that of
    the first that lacks something. -/
theorem accessorsOf_lacks {source : String} {s : Schema} {low : Lowered} (hparse : Schema.parse source = .ok s)
    (hlow : (lower source).result = .ok low) (hnames : s.Undotted) :
    (∀ name, (accessorsOf source).result ≠ .error (.dottedName name)) ∧
    ((∃ text, (accessorsOf source).result = .ok text) ↔
      (∀ x ∈ s.enumsIn, x.2.marksFlags = false → x.2.values ≠ []) ∧
      ∀ x ∈ s.fieldsIn, ∀ written, x.2.type = .single (.named written) →
        (Symbols.ofSchema s).resolve? x.1 written ≠ none) ∧
    ∀ err, (accessorsOf source).result = .error (.schema err) ↔
      FirstOffence (Emitted.Lacks (Symbols.ofSchema s)) s.emitted err := by
  obtain ⟨s', hparse', hlower⟩ := lower_inv hlow
  rw [hparse] at hparse'
  cases hparse'
  have hread := Schema.written_parse hparse
  have hready := hnames.isReady fun x hx => (hread.of_fieldsIn x hx).flags
  have hdeclarations := (Schema.declarations_lower hparse hlower).2
  have hfails : Generating.FailsAs (Symbols.ofSchema (s.mapEnums EnumDef.asFlags)) (accessorsOf source)
      (s.mapEnums EnumDef.asFlags).emitted := by
    have haccessors : (accessorsOf source).result = low.schema.accessors.result := by
      rw [accessorsOf, Traced.result_bind, Traced.mapError, hlow]
      rfl
    have hfails := (Schema.failsAs_declarations hready).bind_nil (f := fun ds =>
      (pure (Schema.accessorsHeader ++ CodeTree.renderAll (Declaration.allCode ds) ++ "\n") : Generating String))
        fun _ _ => .pure _
    rw [← hdeclarations] at hfails
    intro err
    rw [haccessors]
    exact hfails err
  have herror : ∀ err, (accessorsOf source).result = .error err ↔
      ∃ e, err = .schema e ∧ FirstOffence (Emitted.Lacks (Symbols.ofSchema s)) s.emitted e := by
    intro err
    rw [hfails err, Schema.emitted_mapEnums]
    refine exists_congr fun e => and_congr_right fun _ => ?_
    rw [FirstOffence.map_iff]
    exact FirstOffence.congr fun x _ e => Emitted.lacks_mapEnum_iff
  refine ⟨fun name h => ?_, ?_, fun err => ?_⟩
  · obtain ⟨e, heq, -⟩ := (herror _).mp h
    cases heq
  · have hnone : (∃ text, (accessorsOf source).result = .ok text) ↔
        ∀ x ∈ s.emitted, ∀ e, ¬ x.Lacks (Symbols.ofSchema s) e := by
      rw [Traced.exists_ok_iff, ← FirstOffence.forall_not_iff]
      constructor
      · exact fun hok e hfirst => hok _ ((herror _).mpr ⟨e, rfl, hfirst⟩)
      · intro hfirst err herr
        obtain ⟨e, -, h⟩ := (herror err).mp herr
        exact hfirst e h
    rw [hnone, Schema.forall_emitted_iff]
    refine and_congr (forall₂_congr fun x hx => ?_) (forall₂_congr fun x _ => ?_)
    · exact Emitted.forall_not_lacks_enum_iff (hread.of_enumsIn x hx).storage
    · exact Emitted.forall_not_lacks_field_iff
  · rw [herror]
    constructor
    · rintro ⟨e, heq, hfirst⟩
      cases heq
      exact hfirst
    · exact fun hfirst => ⟨err, rfl, hfirst⟩

/-- Whether the names of a schema have no dots, by looking at each of them. -/
def Schema.isUndotted (s : Schema) : Bool :=
  s.typesIn.all (fun t => decide (IsUndotted t.type.name)) &&
    s.enumsIn.all (fun x => x.2.values.all fun v => decide (IsUndotted v.name)) &&
    s.fieldsIn.all fun x => !x.2.isSingle || decide (IsUndotted x.2.name)

theorem Schema.undotted_of_isUndotted {s : Schema} (h : s.isUndotted = true) : s.Undotted := by
  simp only [isUndotted, Bool.and_eq_true, List.all_eq_true, decide_eq_true_eq, Bool.or_eq_true,
    Bool.not_eq_true'] at h
  obtain ⟨⟨htypes, hvalues⟩, hfields⟩ := h
  refine ⟨htypes, hvalues, fun x hx hsingle => ?_⟩
  rcases hfields x hx with hmap | hname
  · rw [hsingle] at hmap
    cases hmap
  · exact hname

/-- The error of a computation that fails. -/
def Traced.error? {ε α : Type} (t : Traced ε α) : Option ε :=
  match t.result with
  | .ok _    => none
  | .error e => some e

theorem Traced.result_of_error? {ε α : Type} {t : Traced ε α} {e : ε} (h : t.error? = some e) :
    t.result = .error e := by
  unfold error? at h
  split at h
  · cases h
  · next heq => cases h; exact heq

/-- A schema with reserved words for names, a dot in the name of a map, a field of no declared type, and an enum
    without values. -/
def missingType : String :=
  "package riscv.self;\n" ++
  "message Self \x7b\n" ++
  "  map<string, Trap> by.name = 1;\n" ++
  "  repeated Self self = 2;\n" ++
  "  Missing type = 3;\n" ++
  "  enum Trap \x7b \x7d\n" ++
  "\x7d\n"

/-- It is its field that lacks something first: the enum is looked at after the fields. -/
theorem accessorsOf_lacks_missingType :
    ∃ s low, Schema.parse missingType = .ok s ∧ (lower missingType).result = .ok low ∧ s.Undotted ∧
      (accessorsOf missingType).result = .error (.schema (.unresolvedType "riscv.self.Self.type" "Missing")) ∧
      FirstOffence (Emitted.Lacks (Symbols.ofSchema s)) s.emitted
        (.unresolvedType "riscv.self.Self.type" "Missing") := by
  have hread : (Schema.parse missingType).toOption.map Schema.isUndotted = some true := by
    rw [Schema.parse_eq]
    delta missingType
    simp only [String.toList_append, String.reduceToList]
    decide +kernel
  have hlowered : (lower missingType).result.isOk = true := by
    rw [lower_eq]
    delta missingType
    simp only [String.toList_append, String.reduceToList]
    decide +kernel
  have hfails : (accessorsOf missingType).error? =
      some (.schema (.unresolvedType "riscv.self.Self.type" "Missing")) := by
    rw [accessorsOf, lower_eq]
    delta missingType
    simp only [String.toList_append, String.reduceToList]
    decide +kernel
  obtain ⟨low, hlow⟩ := exists_of_isOk hlowered
  obtain ⟨s, hparse, -⟩ := lower_inv hlow
  rw [hparse] at hread
  have hnames := Schema.undotted_of_isUndotted (Option.some.inj hread)
  have herror := Traced.result_of_error? hfails
  exact ⟨s, low, hparse, hlow, hnames, herror, ((accessorsOf_lacks hparse hlow hnames).2.2 _).mp herror⟩

end FlagSchema
