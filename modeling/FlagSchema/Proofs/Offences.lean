import FlagSchema.Proofs.Reports

/-!
# Why lowering fails

A source that is read is lowered unless something in it offends: a set of flags that declares the name of
the empty set or too many values, a default that names no flag. The error tells the first offence, that of
an enum before that of any field.

* **`FirstOffence`**: the first element of a list that offends, and how.
* **`Traced.each_eq_error_iff`**: one computation after another fails as the first of them that fails.
* **`EnumDef.Offends`**, **`Field.Offends`**: what offends, said without the computations.
* **`lower_offences`**: lowering succeeds where nothing offends, and else tells the first offence.
-/

namespace FlagSchema

-- ── The first offence ────────────────────────────────────────────────────────────

/-- The first element of a list that offends, and how it does. -/
inductive FirstOffence {α ε : Type} (offends : α → ε → Prop) : List α → ε → Prop where
  | here {a : α} {as : List α} {e : ε} (h : offends a e) : FirstOffence offends (a :: as) e
  | there {a : α} {as : List α} {e : ε} (ha : ∀ e', ¬ offends a e') (h : FirstOffence offends as e) :
      FirstOffence offends (a :: as) e

namespace FirstOffence

variable {α β ε : Type} {offends offends' : α → ε → Prop} {as : List α} {e : ε}

/-- There is a first offence if there is any. -/
theorem exists_iff : (∃ e, FirstOffence offends as e) ↔ ∃ a ∈ as, ∃ e, offends a e := by
  constructor
  · rintro ⟨e, h⟩
    induction h with
    | here h => exact ⟨_, List.mem_cons_self .., _, h⟩
    | there _ _ ih =>
        obtain ⟨a, ha, h⟩ := ih
        exact ⟨a, List.mem_cons_of_mem _ ha, h⟩
  · rintro ⟨a, ha, e, h⟩
    induction as with
    | nil => cases ha
    | cons b bs ih =>
        by_cases hb : ∃ e', offends b e'
        · obtain ⟨e', hb⟩ := hb
          exact ⟨e', .here hb⟩
        · have hb : ∀ e', ¬ offends b e' := fun e' hoffends => hb ⟨e', hoffends⟩
          rcases List.mem_cons.mp ha with rfl | ha
          · exact absurd h (hb e)
          · obtain ⟨e', hbs⟩ := ih ha
            exact ⟨e', .there hb hbs⟩

/-- There is no first offence if there is none. -/
theorem forall_not_iff : (∀ e, ¬ FirstOffence offends as e) ↔ ∀ a ∈ as, ∀ e, ¬ offends a e := by
  have h : (¬ ∃ e, FirstOffence offends as e) ↔ ¬ ∃ a ∈ as, ∃ e, offends a e := not_congr exists_iff
  push Not at h
  exact h

/-- The first offence depends on the offences of the elements alone. -/
theorem congr (h : ∀ a ∈ as, ∀ e, offends a e ↔ offends' a e) :
    FirstOffence offends as e ↔ FirstOffence offends' as e := by
  have weaken : ∀ {p q : α → ε → Prop} {bs : List α}, (∀ a ∈ bs, ∀ e, p a e ↔ q a e) →
      FirstOffence p bs e → FirstOffence q bs e := by
    intro p q bs hpq hp
    induction hp with
    | here ha => exact .here ((hpq _ (List.mem_cons_self ..) _).mp ha)
    | there ha _ ih =>
        refine .there ?_ (ih fun b hb => hpq b (List.mem_cons_of_mem _ hb))
        intro e' hq
        exact ha e' ((hpq _ (List.mem_cons_self ..) _).mpr hq)
  exact ⟨weaken h, weaken fun a ha e => (h a ha e).symm⟩

/-- Elements that are left out do not offend. -/
theorem filterMap {p : β → ε → Prop} (g : α → Option β) :
    FirstOffence p (as.filterMap g) e ↔ FirstOffence (fun a e => ∃ b, g a = some b ∧ p b e) as e := by
  induction as with
  | nil => exact ⟨nofun, nofun⟩
  | cons a as ih =>
      cases hg : g a with
      | none =>
          have hnone : ∀ e', ¬ ∃ b, g a = some b ∧ p b e' := by
            rintro e' ⟨b, hb, -⟩
            rw [hg] at hb
            cases hb
          rw [List.filterMap_cons_none hg, ih]
          constructor
          · exact .there hnone
          · intro h
            cases h with
            | here h => exact absurd h (hnone _)
            | there _ h => exact h
      | some b =>
          have hsome : ∀ e', (∃ b', g a = some b' ∧ p b' e') ↔ p b e' := by
            intro e'
            constructor
            · rintro ⟨b', hb', h⟩
              rw [hg] at hb'
              cases hb'
              exact h
            · exact fun h => ⟨b, hg, h⟩
          rw [List.filterMap_cons_some hg]
          constructor
          · intro h
            cases h with
            | here h => exact .here ((hsome _).mpr h)
            | there hb h => exact .there (fun e' h' => hb e' ((hsome _).mp h')) (ih.mp h)
          · intro h
            cases h with
            | here h => exact .here ((hsome _).mp h)
            | there hb h => exact .there (fun e' h' => hb e' ((hsome _).mpr h')) (ih.mpr h)

/-- The first offence in one list behind another is in the second only if nothing in the first offends. -/
theorem append_iff {bs : List α} :
    FirstOffence offends (as ++ bs) e ↔
      FirstOffence offends as e ∨ (∀ a ∈ as, ∀ e', ¬ offends a e') ∧ FirstOffence offends bs e := by
  induction as with
  | nil =>
      constructor
      · exact fun h => .inr ⟨nofun, h⟩
      · rintro (h | ⟨-, h⟩)
        · cases h
        · exact h
  | cons a as ih =>
      rw [List.cons_append]
      constructor
      · intro h
        cases h with
        | here h => exact .inl (.here h)
        | there ha h =>
            rcases ih.mp h with h | ⟨has, h⟩
            · exact .inl (.there ha h)
            · exact .inr ⟨List.forall_mem_cons.mpr ⟨ha, has⟩, h⟩
      · rintro (h | ⟨has, h⟩)
        · cases h with
          | here h => exact .here h
          | there ha h => exact .there ha (ih.mpr (.inl h))
        · obtain ⟨ha, has⟩ := List.forall_mem_cons.mp has
          exact .there ha (ih.mpr (.inr ⟨has, h⟩))

/-- Elements that are changed offend as what they become. -/
theorem map_iff {p : β → ε → Prop} (g : α → β) :
    FirstOffence p (as.map g) e ↔ FirstOffence (fun a e => p (g a) e) as e := by
  rw [← List.filterMap_eq_map, filterMap]
  refine congr fun a _ e => ?_
  constructor
  · rintro ⟨b, hb, h⟩
    cases hb
    exact h
  · exact fun h => ⟨g a, rfl, h⟩

end FirstOffence

namespace Traced

variable {α β ε : Type}

/-- Two computations in a row fail if one does. -/
theorem bind_eq_error {t : Traced ε α} {f : α → Traced ε β} {e : ε} :
    (t >>= f).result = .error e ↔
      t.result = .error e ∨ ∃ a, t.result = .ok a ∧ (f a).result = .error e := by
  rw [result_bind]
  cases t.result with
  | error e' =>
      constructor
      · intro h
        cases h
        exact .inl rfl
      · rintro (h | ⟨a, ha, -⟩)
        · cases h; rfl
        · cases ha
  | ok a =>
      constructor
      · exact fun h => .inr ⟨a, rfl, h⟩
      · rintro (h | ⟨a', ha, h⟩)
        · cases h
        · cases ha; exact h

/-- **One computation after another fails as the first that fails.** -/
theorem each_eq_error_iff {f : α → Traced ε β} {as : List α} {e : ε} :
    (each f as).result = .error e ↔ FirstOffence (fun a e => (f a).result = .error e) as e := by
  induction as with
  | nil => exact ⟨nofun, nofun⟩
  | cons a as ih =>
      have hstep : (each f (a :: as)).result = .error e ↔
          (f a).result = .error e ∨ ∃ b, (f a).result = .ok b ∧ (each f as).result = .error e := by
        show (f a >>= fun b => each f as >>= fun bs => Pure.pure (b :: bs)).result = .error e ↔ _
        rw [bind_eq_error]
        refine or_congr_right (exists_congr fun b => and_congr_right fun _ => ?_)
        rw [bind_eq_error]
        constructor
        · rintro (h | ⟨bs, -, h⟩)
          · exact h
          · cases h
        · exact .inl
      rw [hstep, ih]
      constructor
      · rintro (h | ⟨b, hb, h⟩)
        · exact .here h
        · refine .there ?_ h
          intro e' he'
          rw [hb] at he'
          cases he'
      · intro h
        cases h with
        | here h => exact .inl h
        | there ha h =>
            cases hb : (f a).result with
            | error e' => exact absurd hb (ha e')
            | ok b => exact .inr ⟨b, rfl, h⟩

/-- A computation succeeds unless it fails. -/
theorem exists_ok_iff {t : Traced ε α} : (∃ a, t.result = .ok a) ↔ ∀ e, t.result ≠ .error e := by
  cases t.result with
  | error e => exact ⟨nofun, fun h => absurd rfl (h e)⟩
  | ok a => exact ⟨fun _ => nofun, fun _ => ⟨a, rfl⟩⟩

end Traced

-- ── Enums ────────────────────────────────────────────────────────────────────────

/-- An enum with a full name offends if it is marked as a set of flags, and declares the name of the empty
    set or else more values than there are bits. -/
inductive EnumDef.Offends (fullName : String) (e : EnumDef) : SchemaError → Prop where
  | reservedNone (marked : e.marksFlags = true) (declared : ∃ v ∈ e.values, v.name = "None") :
      Offends fullName e (.reservedNone fullName)
  | tooManyFlags (marked : e.marksFlags = true) (free : ∀ v ∈ e.values, v.name ≠ "None")
      (many : 64 < e.values.length) : Offends fullName e (.tooManyFlags fullName e.values.length)

namespace EnumDef

variable {e : EnumDef} {fullName : String} {err : SchemaError}

/-- There is a storage type for up to 64 flags. -/
theorem forFlagCount?_eq_none_iff {count : Nat} : Scalar.forFlagCount? count = none ↔ 64 < count := by
  unfold Scalar.forFlagCount?
  have hmax : Scalar.maxFlags = 64 := rfl
  split
  · next h => exact ⟨nofun, fun _ => by omega⟩
  · split
    · next h => exact ⟨nofun, fun _ => by omega⟩
    · next h => exact ⟨fun _ => by omega, fun _ => rfl⟩

theorem any_emptySetName_iff :
    (e.values.any fun v => v.name == emptySetName) = true ↔ ∃ v ∈ e.values, v.name = "None" := by
  rw [List.any_eq_true]
  exact exists_congr fun v => and_congr_right fun _ => beq_iff_eq

/-- The flags of a marked enum have no storage exactly if it offends. -/
theorem flagStorage_eq_error_iff (hmark : e.marksFlags = true) :
    e.flagStorage fullName = .error err ↔ e.Offends fullName err := by
  rw [flagStorage]
  by_cases hnone : ∃ v ∈ e.values, v.name = "None"
  · rw [if_pos (any_emptySetName_iff.mpr hnone)]
    constructor
    · intro h
      cases h
      exact .reservedNone hmark hnone
    · intro h
      cases h with
      | reservedNone => rfl
      | tooManyFlags _ free =>
          obtain ⟨v, hv, hname⟩ := hnone
          exact absurd hname (free v hv)
  · have hfree : ∀ v ∈ e.values, v.name ≠ "None" := fun v hv hname => hnone ⟨v, hv, hname⟩
    rw [if_neg fun h => hnone (any_emptySetName_iff.mp h)]
    cases hwidth : Scalar.forFlagCount? e.values.length with
    | none =>
        constructor
        · intro h
          cases h
          exact .tooManyFlags hmark hfree (forFlagCount?_eq_none_iff.mp hwidth)
        · intro h
          cases h with
          | reservedNone _ declared => exact absurd declared hnone
          | tooManyFlags => rfl
    | some width =>
        constructor
        · nofun
        · intro h
          cases h with
          | reservedNone _ declared => exact absurd declared hnone
          | tooManyFlags _ _ many =>
              rw [forFlagCount?_eq_none_iff.mpr many] at hwidth
              cases hwidth

/-- No way to offend is left to an enum that keeps the two rules, if it is marked. -/
theorem forall_not_offends_iff :
    (∀ err, ¬ e.Offends fullName err) ↔
      (e.marksFlags = true → (∀ v ∈ e.values, v.name ≠ "None") ∧ e.values.length ≤ 64) := by
  constructor
  · intro h hmark
    have hfree : ∀ v ∈ e.values, v.name ≠ "None" :=
      fun v hv hname => h _ (.reservedNone hmark ⟨v, hv, hname⟩)
    refine ⟨hfree, ?_⟩
    by_contra hmany
    exact h _ (.tooManyFlags hmark hfree (by omega))
  · intro h err hoffends
    cases hoffends with
    | reservedNone marked declared =>
        obtain ⟨v, hv, hname⟩ := declared
        exact (h marked).1 v hv hname
    | tooManyFlags marked _ many =>
        have := (h marked).2
        omega

/-- Making a set of flags fails as finding its storage does. -/
theorem makeFlags_eq_error_iff {source : List Char} {scope : String} :
    (e.makeFlags source scope).result = .error err ↔
      e.flagStorage (joinName scope e.name) = .error err := by
  rw [makeFlags, Traced.bind_eq_error]
  constructor
  · rintro (h | ⟨width, -, h⟩)
    · exact h
    · cases h
  · exact .inl

end EnumDef

-- ── Fields ───────────────────────────────────────────────────────────────────────

namespace Schema

/-- What names refer to once the marked enums are sets of flags. -/
def flagSymbols (s : Schema) : Symbols := Symbols.ofSchema (s.mapEnums EnumDef.asFlags)

/-- The first marked enum with a full name. -/
def markedEnum? (s : Schema) (fullName : String) : Option (String × EnumDef) :=
  s.markedEnums.find? fun x => joinName x.1 x.2.name == fullName

/-- A constant names the empty set, or a flag of the first set of flags with a full name. -/
def NamesFlag (s : Schema) (fullName : String) (c : Constant) : Prop :=
  ∃ name, c = .ident name ∧
    (name = "None" ∨ ∃ x, s.markedEnum? fullName = some x ∧ ∃ v ∈ x.2.values, v.name = name)

end Schema

/-- A field of a message offends if its type refers to a set of flags and its first default does not name one
    of the flags. -/
inductive Field.Offends (s : Schema) (message : String) (f : Field) : SchemaError → Prop where
  | badDefault {fullName : String} {width : Scalar} {d : Setting}
      (type : f.NamesFlags s.flagSymbols message fullName width) (default : f.default? = some d)
      (bad : ¬ s.NamesFlag fullName d.value) :
      Offends s message f (.badDefault (joinName message f.name) fullName d.value)

namespace Schema

variable {s : Schema} {sets : List FlagSet} {fullName : String}

/-- Sets of flags in the report are those of the marked enums. -/
def Reports (s : Schema) (sets : List FlagSet) : Prop :=
  List.Forall₂ (fun x set => ∃ width, set = x.2.flagSet (joinName x.1 x.2.name) width) s.markedEnums sets

/-- The flags of the first reported set with a full name are those of the first marked enum with it. -/
theorem Reports.flags_find? (h : s.Reports sets) (fullName : String) :
    (FlagSet.find? sets fullName).map FlagSet.flags =
      (s.markedEnum? fullName).map fun x => EnumValue.flags 0 x.2.values := by
  rw [Reports] at h
  rw [markedEnum?, FlagSet.find?]
  generalize s.markedEnums = xs at h
  induction h with
  | nil => rfl
  | @cons x set xs sets hset _ ih =>
      obtain ⟨width, rfl⟩ := hset
      have hname : (x.2.flagSet (joinName x.1 x.2.name) width).fullName = joinName x.1 x.2.name := rfl
      rw [List.find?_cons, List.find?_cons, hname]
      cases joinName x.1 x.2.name == fullName with
      | true => rfl
      | false => exact ih

/-- They have the names of its values. -/
theorem Reports.find? (h : s.Reports sets) (fullName : String) :
    (FlagSet.find? sets fullName).map (fun set => set.flags.map Flag.name) =
      (s.markedEnum? fullName).map fun x => x.2.values.map EnumValue.name := by
  have hflags := congrArg (Option.map (List.map Flag.name)) (h.flags_find? fullName)
  rw [Option.map_map, Option.map_map] at hflags
  simp only [Function.comp_def, EnumValue.map_name_flags] at hflags
  exact hflags

/-- A constant has a number as a default exactly if it names a flag. -/
theorem Reports.flagNumber?_isSome_iff (h : s.Reports sets) (fullName : String) (c : Constant) :
    (c.flagNumber? (((FlagSet.find? sets fullName).map FlagSet.flags).getD [])).isSome = true ↔
      s.NamesFlag fullName c := by
  have hfind := h.find? fullName
  cases c with
  | ident name =>
      have hconst : s.NamesFlag fullName (.ident name) ↔
          name = "None" ∨ ∃ x, s.markedEnum? fullName = some x ∧ ∃ v ∈ x.2.values, v.name = name := by
        constructor
        · rintro ⟨name', hname, h⟩
          cases hname
          exact h
        · exact fun h => ⟨name, rfl, h⟩
      rw [hconst, Constant.flagNumber?]
      by_cases hnone : name = "None"
      · rw [if_pos hnone]
        exact ⟨fun _ => .inl hnone, fun _ => rfl⟩
      · rw [if_neg hnone, Option.isSome_map, List.find?_isSome]
        have hmem : (∃ f ∈ ((FlagSet.find? sets fullName).map FlagSet.flags).getD [],
            (f.name == name) = true) ↔
              ∃ names, (s.markedEnum? fullName).map (fun x => x.2.values.map EnumValue.name)
                = some names ∧ name ∈ names := by
          rw [← hfind]
          cases FlagSet.find? sets fullName with
          | none => simp
          | some set => simp
        rw [hmem]
        constructor
        · rintro ⟨names, hnames, hname⟩
          obtain ⟨x, hx, rfl⟩ := Option.map_eq_some_iff.mp hnames
          exact .inr ⟨x, hx, List.mem_map.mp hname⟩
        · rintro (hname | ⟨x, hx, hname⟩)
          · exact absurd hname hnone
          · exact ⟨_, by rw [hx]; rfl, List.mem_map.mpr hname⟩
  | _ => exact ⟨nofun, fun ⟨name, hname, _⟩ => by cases hname⟩

end Schema

namespace Field

variable {s : Schema} {sets : List FlagSet} {message : String} {f : Field} {err : SchemaError}

/-- The default of a field whose type is a set of flags has no number exactly if it names no flag. -/
theorem defaultNumber_eq_error_iff (h : s.Reports sets) {type : FlagTypeRef} :
    f.defaultNumber sets message type = .error err ↔
      ∃ d, f.default? = some d ∧ ¬ s.NamesFlag type.fullName d.value ∧
        err = .badDefault (joinName message f.name) type.fullName d.value := by
  rw [defaultNumber]
  cases f.default? with
  | none =>
      constructor
      · intro herr
        cases herr
      · rintro ⟨d, hd, -⟩
        cases hd
  | some d =>
      have hnames := h.flagNumber?_isSome_iff type.fullName d.value
      dsimp only
      cases hnumber : d.value.flagNumber?
          (((FlagSet.find? sets type.fullName).map FlagSet.flags).getD []) with
      | none =>
          rw [hnumber] at hnames
          constructor
          · intro herr
            cases herr
            exact ⟨d, rfl, fun hd => Bool.false_ne_true (hnames.mpr hd), rfl⟩
          · rintro ⟨d', hd', -, rfl⟩
            cases hd'
            rfl
      | some n =>
          rw [hnumber] at hnames
          constructor
          · intro herr
            cases herr
          · rintro ⟨d', hd', hbad, -⟩
            cases hd'
            exact absurd (hnames.mp rfl) hbad

/-- Retyping a field whose type is a set of flags fails as finding the number of its default does. -/
theorem retype_eq_error_iff {type : FlagTypeRef} :
    (f.retype sets message type).result = .error err ↔ f.defaultNumber sets message type = .error err := by
  rw [retype, Traced.bind_eq_error]
  constructor
  · rintro (h | ⟨number, -, h⟩)
    · exact h
    · cases h
  · exact .inl

/-- A field fails to be retyped exactly if it offends. -/
theorem exists_retype_eq_error_iff (h : s.Reports sets) :
    (∃ type, f.flagType? s.flagSymbols message = some type ∧
        (f.retype sets message type).result = .error err) ↔ f.Offends s message err := by
  constructor
  · rintro ⟨type, htype, herr⟩
    obtain ⟨d, hd, hbad, rfl⟩ := (defaultNumber_eq_error_iff h).mp (retype_eq_error_iff.mp herr)
    exact .badDefault (flagType?_eq_some htype) hd hbad
  · intro hoffends
    cases hoffends with
    | badDefault type default bad =>
        obtain ⟨written, htype⟩ := type.flagType?
        exact ⟨_, htype, retype_eq_error_iff.mpr
          ((defaultNumber_eq_error_iff h).mpr ⟨_, default, bad, rfl⟩)⟩

/-- No way to offend is left to a field whose default names a flag, if its type refers to a set of flags. -/
theorem forall_not_offends_iff :
    (∀ err, ¬ f.Offends s message err) ↔
      ∀ fullName width, f.NamesFlags s.flagSymbols message fullName width →
        ∀ d, f.default? = some d → s.NamesFlag fullName d.value := by
  constructor
  · intro h fullName width htype d hd
    by_contra hbad
    exact h _ (.badDefault htype hd hbad)
  · intro h err hoffends
    cases hoffends with
    | badDefault type default bad => exact bad (h _ _ type _ default)

end Field

-- ── Schemas ──────────────────────────────────────────────────────────────────────

namespace Schema

variable {s : Schema} {source : List Char} {err : SchemaError}

/-- An enum of a scope offends. -/
def EnumOffends (x : String × EnumDef) (err : SchemaError) : Prop :=
  x.2.Offends (joinName x.1 x.2.name) err

/-- A field of a message of a schema offends. -/
def FieldOffends (s : Schema) (x : String × Field) (err : SchemaError) : Prop :=
  x.2.Offends s x.1 err

/-- The pass over the marked enums fails as the first enum that offends. -/
theorem makeFlags_each_eq_error_iff :
    (Traced.each (fun (scope, e) => e.makeFlags source scope) s.markedEnums).result = .error err ↔
      FirstOffence EnumOffends s.enumsIn err := by
  rw [Traced.each_eq_error_iff, markedEnums, ← List.filterMap_eq_filter, FirstOffence.filterMap]
  refine FirstOffence.congr fun x _ e => ?_
  by_cases hmark : x.2.marksFlags = true
  · show (∃ y, Option.guard (fun x => x.2.marksFlags) x = some y ∧ _) ↔ _
    rw [EnumOffends, ← EnumDef.flagStorage_eq_error_iff hmark, ← EnumDef.makeFlags_eq_error_iff]
    constructor
    · rintro ⟨y, hy, h⟩
      obtain ⟨rfl, -⟩ := Option.guard_eq_some_iff.mp hy
      exact h
    · exact fun h => ⟨x, Option.guard_eq_some_iff.mpr ⟨rfl, hmark⟩, h⟩
  · constructor
    · rintro ⟨y, hy, -⟩
      obtain ⟨rfl, hy'⟩ := Option.guard_eq_some_iff.mp hy
      exact absurd hy' hmark
    · intro h
      cases h with
      | reservedNone marked => exact absurd marked hmark
      | tooManyFlags marked => exact absurd marked hmark

/-- The sets of flags that the pass over the marked enums gives are those of the report. -/
theorem reports_of_makeFlags {enums : List (FlagSet × Edit)}
    (h : (Traced.each (fun (scope, e) => e.makeFlags source scope) s.markedEnums).result = .ok enums) :
    s.Reports (enums.map Prod.fst) := by
  rw [Reports, List.forall₂_map_right_iff]
  refine (Traced.forall₂_of_each h).imp fun x y hy => ?_
  obtain ⟨width, -, hy⟩ := Traced.bind_eq_ok.mp hy
  cases hy
  exact ⟨width, rfl⟩

/-- The pass over the fields fails as the first field that offends. -/
theorem retype_each_eq_error_iff {sets : List FlagSet} (h : s.Reports sets) :
    (Traced.each (fun (message, f, type) => f.retype sets message type)
        ((s.mapEnums EnumDef.asFlags).flagFields s.flagSymbols)).result = .error err ↔
      FirstOffence s.FieldOffends s.fieldsIn err := by
  rw [Traced.each_eq_error_iff, flagFields, fieldsIn_mapEnums, FirstOffence.filterMap]
  refine FirstOffence.congr fun x _ e => ?_
  rw [FieldOffends, ← Field.exists_retype_eq_error_iff h]
  constructor
  · rintro ⟨y, hy, herr⟩
    obtain ⟨type, htype, rfl⟩ := Option.map_eq_some_iff.mp hy
    exact ⟨type, htype, herr⟩
  · rintro ⟨type, htype, herr⟩
    exact ⟨(x.1, x.2, type), Option.map_eq_some_iff.mpr ⟨type, htype, rfl⟩, herr⟩

/-- Lowering fails if the pass over the marked enums does, or the one over the fields. -/
theorem lower_eq_error_iff_passes :
    (s.lower source).result = .error err ↔
      (Traced.each (fun (scope, e) => e.makeFlags source scope) s.markedEnums).result = .error err ∨
        ∃ enums, (Traced.each (fun (scope, e) => e.makeFlags source scope) s.markedEnums).result
            = .ok enums ∧
          (Traced.each (fun (message, f, type) => f.retype (enums.map Prod.fst) message type)
            ((s.mapEnums EnumDef.asFlags).flagFields s.flagSymbols)).result = .error err := by
  rw [lower, Traced.bind_eq_error]
  refine or_congr_right (exists_congr fun enums => and_congr_right fun _ => ?_)
  constructor
  · intro h
    rcases Traced.bind_eq_error.mp h with h | ⟨fields, -, h⟩
    · exact h
    · cases h
  · intro h
    exact Traced.bind_eq_error.mpr (.inl h)

/-- The pass over the marked enums succeeds exactly if no enum offends. -/
theorem exists_makeFlags_each_iff (source : List Char) :
    (∃ enums, (Traced.each (fun (scope, e) => e.makeFlags source scope) s.markedEnums).result
        = .ok enums) ↔ ∀ x ∈ s.enumsIn, ∀ err, ¬ EnumOffends x err := by
  rw [Traced.exists_ok_iff, ← FirstOffence.forall_not_iff]
  exact forall_congr' fun err => not_congr makeFlags_each_eq_error_iff

/-- **Lowering fails as the first enum that offends or, if none does, as the first field.** -/
theorem lower_eq_error_iff :
    (s.lower source).result = .error err ↔
      FirstOffence EnumOffends s.enumsIn err ∨
        (∀ x ∈ s.enumsIn, ∀ err', ¬ EnumOffends x err') ∧ FirstOffence s.FieldOffends s.fieldsIn err := by
  rw [lower_eq_error_iff_passes, makeFlags_each_eq_error_iff]
  refine or_congr_right ?_
  constructor
  · rintro ⟨enums, henums, h⟩
    exact ⟨(exists_makeFlags_each_iff source).mp ⟨enums, henums⟩,
      (retype_each_eq_error_iff (reports_of_makeFlags henums)).mp h⟩
  · rintro ⟨hfree, h⟩
    obtain ⟨enums, henums⟩ := (exists_makeFlags_each_iff source).mpr hfree
    exact ⟨enums, henums, (retype_each_eq_error_iff (reports_of_makeFlags henums)).mpr h⟩

/-- Lowering succeeds exactly if no enum and no field offends. -/
theorem exists_lower_iff :
    (∃ low, (s.lower source).result = .ok low) ↔
      (∀ x ∈ s.enumsIn, ∀ err, ¬ EnumOffends x err) ∧ ∀ x ∈ s.fieldsIn, ∀ err, ¬ s.FieldOffends x err := by
  have henums_iff : (∀ x ∈ s.enumsIn, ∀ err, ¬ EnumOffends x err) ↔
      ∀ err, ¬ FirstOffence EnumOffends s.enumsIn err := FirstOffence.forall_not_iff.symm
  have hfields_iff : (∀ x ∈ s.fieldsIn, ∀ err, ¬ s.FieldOffends x err) ↔
      ∀ err, ¬ FirstOffence s.FieldOffends s.fieldsIn err := FirstOffence.forall_not_iff.symm
  rw [Traced.exists_ok_iff, henums_iff, hfields_iff]
  constructor
  · intro hok
    have henums : ∀ err, ¬ FirstOffence EnumOffends s.enumsIn err :=
      fun err h => hok err (lower_eq_error_iff.mpr (.inl h))
    exact ⟨henums, fun err h => hok err
      (lower_eq_error_iff.mpr (.inr ⟨FirstOffence.forall_not_iff.mp henums, h⟩))⟩
  · rintro ⟨henums, hfields⟩ err hfails
    rcases lower_eq_error_iff.mp hfails with h | ⟨-, h⟩
    · exact henums err h
    · exact hfields err h

end Schema

/-- **Lowering fails for nothing but an offence.** A source that is read is lowered exactly if no set of flags
    declares the name of the empty set, none has more than 64 values, and the first default of every field
    whose type refers to a set of flags names one of its flags; else the error is that of the first offence. -/
theorem lower_offences {source : String} {s : Schema} (h : Schema.parse source = .ok s) :
    ((∃ low, (lower source).result = .ok low) ↔
      (∀ x ∈ s.enumsIn, x.2.marksFlags = true →
        (∀ v ∈ x.2.values, v.name ≠ "None") ∧ x.2.values.length ≤ 64) ∧
      ∀ x ∈ s.fieldsIn, ∀ fullName width, x.2.NamesFlags s.flagSymbols x.1 fullName width →
        ∀ d, x.2.default? = some d → s.NamesFlag fullName d.value) ∧
    ∀ err, (lower source).result = .error err ↔
      FirstOffence Schema.EnumOffends s.enumsIn err ∨
        (∀ x ∈ s.enumsIn, ∀ err', ¬ Schema.EnumOffends x err') ∧
          FirstOffence s.FieldOffends s.fieldsIn err := by
  have hlower : (lower source).result = (s.lower source.toList).result := by
    rw [lower, Traced.result_bind, Traced.lift, h]
    rfl
  rw [hlower]
  refine ⟨?_, fun err => Schema.lower_eq_error_iff⟩
  rw [Schema.exists_lower_iff]
  refine and_congr ?_ ?_
  · exact forall₂_congr fun x _ => EnumDef.forall_not_offends_iff
  · exact forall₂_congr fun x _ => Field.forall_not_offends_iff

/-- A schema with a default that names no flag, and behind it a set of flags that declares the name of the
    empty set. -/
def twoOffences : String :=
  "message Hart \x7b\n" ++
  "  enum Mode \x7b option (bitmap) = true; M = 0; \x7d\n" ++
  "  optional Mode mode = 1 [default = S];\n" ++
  "\x7d\n" ++
  "enum Trap \x7b option (bitmap) = true; None = 0; \x7d\n"

/-- The offence of its enum is told, not that of the field in front of it. -/
theorem lower_offences_twoOffences :
    ∃ s, Schema.parse twoOffences = .ok s ∧
      FirstOffence Schema.EnumOffends s.enumsIn (.reservedNone "Trap") ∧
      (lower twoOffences).result = .error (.reservedNone "Trap") := by
  have hcomputed : (Schema.parse twoOffences).toOption.map (fun s => s.enumsIn.head?.map fun x =>
      (joinName x.1 x.2.name, x.2.marksFlags, x.2.values.map EnumValue.name)) =
        some (some ("Trap", true, ["None"])) := by
    rw [Schema.parse_eq]
    delta twoOffences
    simp only [String.toList_append, String.reduceToList]
    decide +kernel
  cases h : Schema.parse twoOffences with
  | error e => rw [h] at hcomputed; cases hcomputed
  | ok s =>
      rw [h] at hcomputed
      obtain ⟨x, hx, hcomputed⟩ := Option.map_eq_some_iff.mp (Option.some.inj hcomputed)
      obtain ⟨hname, hcomputed⟩ := Prod.mk.inj hcomputed
      obtain ⟨hmark, hvalues⟩ := Prod.mk.inj hcomputed
      have hnone : ∃ v ∈ x.2.values, v.name = "None" := by
        rw [← List.mem_map, hvalues]
        exact List.mem_singleton.mpr rfl
      have hoffends : Schema.EnumOffends x (.reservedNone "Trap") := by
        rw [Schema.EnumOffends, hname]
        exact .reservedNone hmark hnone
      have hfirst : FirstOffence Schema.EnumOffends s.enumsIn (.reservedNone "Trap") := by
        cases henums : s.enumsIn with
        | nil => rw [henums] at hx; cases hx
        | cons y ys =>
            rw [henums] at hx
            cases hx
            exact .here hoffends
      exact ⟨s, rfl, hfirst, ((lower_offences h).2 _).mpr (.inl hfirst)⟩

end FlagSchema
