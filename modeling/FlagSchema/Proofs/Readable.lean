import FlagSchema.Proofs.Discriminants
import FlagSchema.Proofs.Generation
import FlagSchema.Proofs.Names
import FlagSchema.Proofs.Rendering

/-!
# Reading the text of the accessors

The text of the accessors is read back as the code that is written: no word in it has a blank or a bracket. The words
are those of a fixed vocabulary, numbers, and identifiers; and identifiers are made of names that have been scanned in
the source.

* **`Declaration.IsPlain`**: the identifiers in a definition are words.
* **`Declaration.allPlain_allCode`**: so are all words in the code of such definitions.
* **`Schema.InWords`**, **`Schema.inWords_parse`**: the names in a schema that has been read are words.
* **`Schema.isPlain_of_at`**: so are the identifiers in the definitions that are generated for it.
* **`accessorsOf_read?`**: the text of the accessors of a source is read back as their code.
-/

namespace FlagSchema

open Declaration CodeTree Token Reader

-- ── Names as words ───────────────────────────────────────────────────────────────

theorem isWordChar_of_isNameChar {c : Char} (h : isNameChar c = true) : isWordChar c = true := by
  have hnone : [' ', '(', ')', '[', ']', '\x7b', '\x7d'].any isNameChar = false := by decide
  exact isWordChar_iff.mpr fun hmem => List.any_eq_false.mp hnone c hmem h

theorem isWordChar_toLower {c : Char} (h : c.isUpper = true) : isWordChar c.toLower = true := by
  have hnone : [' ', '(', ')', '[', ']', '\x7b', '\x7d'].any
      (fun d => decide (97 ≤ d.toNat ∧ d.toNat ≤ 122)) = false := by decide
  exact isWordChar_iff.mpr fun hmem => List.any_eq_false.mp hnone _ hmem (decide_eq_true (toNat_toLower h))

/-- A name that the scanner finds is a word. -/
theorem Token.IsScanned.isPlainWord {name : String} (h : IsScanned name) : isPlainWord name = true := by
  obtain ⟨w, rest, hleads, hkind⟩ := h
  obtain ⟨⟨c, cs, hcs, -⟩, hname, hcut⟩ := hleads.name_form hkind
  refine isPlainWord_iff.mpr ⟨by rw [hname, hcs]; exact List.cons_ne_nil c cs, fun d hd => ?_⟩
  have hfront := nameChars_of_cutName (w.spelling ++ rest) d
  rw [hcut, ← hname] at hfront
  rcases hfront hd with hchar | rfl
  · exact isWordChar_of_isNameChar hchar
  · decide

theorem snakeCaseFrom_ne_nil (afterSmall : Bool) {cs : List Char} (h : cs ≠ []) : snakeCaseFrom afterSmall cs ≠ [] := by
  cases cs with
  | nil => exact absurd rfl h
  | cons c cs =>
      rw [snakeCaseFrom]
      split <;> simp

theorem isWordChar_snakeCaseFrom (afterSmall : Bool) {cs : List Char} (h : ∀ c ∈ cs, isWordChar c = true) :
    ∀ c ∈ snakeCaseFrom afterSmall cs, isWordChar c = true := by
  induction cs generalizing afterSmall with
  | nil => exact List.forall_mem_nil _
  | cons c cs ih =>
      obtain ⟨hc, hcs⟩ := List.forall_mem_cons.mp h
      rw [snakeCaseFrom]
      split
      · next hupper =>
          have hfront : (if afterSmall then ['_'] else []).all isWordChar = true := by split <;> decide
          exact List.forall_mem_append.mpr ⟨List.all_eq_true.mp hfront,
            List.forall_mem_cons.mpr ⟨isWordChar_toLower hupper, ih false hcs⟩⟩
      · exact List.forall_mem_cons.mpr ⟨hc, ih _ hcs⟩

/-- A word in snake case is a word. -/
theorem isPlainWord_snakeCase {name : String} (h : isPlainWord name = true) : isPlainWord (snakeCase name) = true := by
  obtain ⟨hne, hall⟩ := isPlainWord_iff.mp h
  refine isPlainWord_iff.mpr ?_
  rw [snakeCase, String.toList_ofList]
  exact ⟨snakeCaseFrom_ne_nil false hne, isWordChar_snakeCaseFrom false hall⟩

theorem mem_of_mem_splitAt {c d : Char} {cs part : List Char} (h : part ∈ Text.splitAt c cs) (hd : d ∈ part) :
    d ∈ cs := by
  induction cs generalizing part with
  | nil =>
      cases List.mem_singleton.mp h
      cases hd
  | cons e es ih =>
      rw [Text.splitAt] at h
      split at h
      · rcases List.mem_cons.mp h with rfl | h
        · cases hd
        · exact List.mem_cons_of_mem _ (ih h hd)
      · cases hsplit : Text.splitAt c es with
        | nil => exact absurd hsplit (Text.splitAt_ne_nil c es)
        | cons first others =>
            rw [hsplit] at h ih
            rcases List.mem_cons.mp h with rfl | h
            · rcases List.mem_cons.mp hd with rfl | hd
              · exact List.mem_cons_self ..
              · exact List.mem_cons_of_mem _ (ih (List.mem_cons_self ..) hd)
            · exact List.mem_cons_of_mem _ (ih (List.mem_cons_of_mem _ h) hd)

/-- The segments of a word are words. -/
theorem isPlainWord_nameSegments {name segment : String} (h : isPlainWord name = true)
    (hsegment : segment ∈ nameSegments name) : isPlainWord segment = true := by
  obtain ⟨cs, hcs, rfl⟩ := List.mem_map.mp hsegment
  obtain ⟨hpart, hne⟩ := List.mem_filter.mp hcs
  refine isPlainWord_iff.mpr ?_
  rw [String.toList_ofList]
  exact ⟨by simpa using hne, fun c hc => (isPlainWord_iff.mp h).2 c (mem_of_mem_splitAt hpart hc)⟩

-- ── Identifiers as words ─────────────────────────────────────────────────────────

/-- An identifier is a word. -/
def Ident.IsPlain (i : Ident) : Prop := isPlainWord i.text = true

instance (i : Ident) : Decidable i.IsPlain := inferInstanceAs (Decidable (isPlainWord i.text = true))

namespace Ident

variable {i : Ident}

/-- The identifier of a word is a word. -/
theorem isPlain_of_ofName? {name : String} (h : isPlainWord name = true) (hi : ofName? name = some i) : i.IsPlain := by
  have hunderscore : isPlainWord ("" ++ name ++ "_") = true := isPlainWord_between h (by decide)
  rw [IsPlain, text_ofName? hi, textOf]
  split
  · rwa [String.empty_append] at hunderscore
  · exact h

/-- It is one as it is written. -/
theorem IsPlain.render (h : i.IsPlain) : isPlainWord i.render = true := by
  have hraw : isPlainWord ("r#" ++ i.text ++ "") = true := isPlainWord_between h (by decide)
  rw [Ident.render]
  split
  · rwa [String.append_empty] at hraw
  · exact h

theorem IsPlain.code (h : i.IsPlain) : AllPlain i.code := ⟨h.render, trivial⟩

theorem IsPlain.around (h : i.IsPlain) {front back : String}
    (hsides : front.toList.all isWordChar = true ∧ back.toList.all isWordChar = true) :
    (i.around front back).IsPlain := isPlainWord_between h hsides

end Ident

-- ── Definitions ──────────────────────────────────────────────────────────────────

/-- The identifiers of a path are words. -/
def TypePath.IsPlain (p : TypePath) : Prop := (∀ m ∈ p.modules, m.IsPlain) ∧ p.name.IsPlain

/-- The identifiers of a field and of the way to its type are words. -/
def Member.IsPlain (m : Member) : Prop := m.ident.IsPlain ∧ ∀ path, m.holding.path? = some path → path.IsPlain

/-- The identifiers in a definition are words, but for what is in a module. -/
def Declaration.IsPlain : Declaration → Prop
  | struct ident members            => ident.IsPlain ∧ ∀ m ∈ members, m.IsPlain
  | enum ident first others         => ident.IsPlain ∧ ∀ x ∈ first :: others, x.ident.IsPlain
  | flags ident _ constants table   =>
    ident.IsPlain ∧ (∀ c ∈ constants, c.1.IsPlain) ∧ ∀ row ∈ table, isPlainWord row.1 = true
  | module ident _                  => ident.IsPlain

theorem TypePath.IsPlain.code {p : TypePath} (h : p.IsPlain) : AllPlain p.code := by
  obtain ⟨hmodules, hname⟩ := h
  have hups : ∀ c ∈ List.replicate p.ups (words "super ::"), AllPlain c := by
    intro c hc
    rw [List.eq_of_mem_replicate hc]
    simp +decide
  have hpath : ∀ c ∈ p.modules.map fun m => m.code ++ words "::", AllPlain c := by
    rw [List.forall_mem_map]
    intro m hm
    simp +decide [(hmodules m hm).code]
  rw [TypePath.code, allPlain_append, allPlain_append, allPlain_flatten, allPlain_flatten]
  exact ⟨⟨hups, hpath⟩, hname.code⟩

@[simp] theorem Scalar.allPlain_storage (s : Scalar) : AllPlain s.storage := by
  cases s <;> simp +decide [storage]

namespace Member

variable {m : Member}

theorem IsPlain.element (h : m.IsPlain) :
    AllPlain m.element.1 ∧ AllPlain m.element.2.1 ∧ AllPlain m.element.2.2 := by
  unfold Member.element
  split
  case h_4 path hpath => simp +decide [(h.2 path (by rw [hpath]; rfl)).code]
  case h_5 path w hpath => simp +decide [(h.2 path (by rw [hpath]; rfl)).code]
  case h_6 path hpath => simp +decide [(h.2 path (by rw [hpath]; rfl)).code]
  all_goals simp +decide [intoText, intoBytes]

theorem IsPlain.storage (h : m.IsPlain) : AllPlain m.storage := by
  unfold Member.storage
  split
  · simp +decide [h.element.1]
  · split
    case h_4 path hpath => simp +decide [(h.2 path (by rw [hpath]; rfl)).code]
    all_goals simp +decide

section

variable {ident : Ident} {type body : Code}

@[simp] theorem allPlain_looking :
    AllPlain (looking ident type body).code ↔ AllPlain ident.code ∧ AllPlain type ∧ AllPlain body := by
  simp +decide [Method.code, looking]

@[simp] theorem allPlain_changing : AllPlain (changing ident body).code ↔ AllPlain ident.code ∧ AllPlain body := by
  simp +decide [Method.code, changing]

@[simp] theorem allPlain_taking :
    AllPlain (taking ident type body).code ↔ AllPlain ident.code ∧ AllPlain type ∧ AllPlain body := by
  simp +decide [Method.code, taking]

@[simp] theorem allPlain_lending :
    AllPlain (lending ident type body).code ↔ AllPlain ident.code ∧ AllPlain type ∧ AllPlain body := by
  simp +decide [Method.code, lending]

end

theorem IsPlain.place (h : m.IsPlain) : AllPlain m.place := by simp +decide [Member.place, h.1.code]

theorem IsPlain.emptying (h : m.IsPlain) : AllPlain m.emptying.code := by
  have hclear : m.clearer.IsPlain := h.1.around (by decide)
  simp +decide [Member.emptying, hclear.code, h.place]

theorem IsPlain.textMethods (h : m.IsPlain) {owned viewed into : Code} (howned : AllPlain owned)
    (hviewed : AllPlain viewed) (hinto : AllPlain into) :
    ∀ x ∈ m.textMethods owned viewed into, AllPlain x.code := by
  have hset : m.setter.IsPlain := h.1.around (by decide)
  have hlend : m.lender.IsPlain := h.1.around (by decide)
  simp +decide [Member.textMethods, h.1.code, hset.code, hlend.code, h.place, h.emptying, howned, hviewed, hinto]

theorem IsPlain.singleMethods (h : m.IsPlain) : ∀ x ∈ m.singleMethods, AllPlain x.code := by
  have hset : m.setter.IsPlain := h.1.around (by decide)
  have hclear : m.clearer.IsPlain := h.1.around (by decide)
  have hlend : m.lender.IsPlain := h.1.around (by decide)
  have htest : m.tester.IsPlain := h.1.around (by decide)
  unfold Member.singleMethods
  split
  case h_1 => exact h.textMethods (Scalar.allPlain_storage _) (by simp +decide) (by simp +decide [intoText])
  case h_2 => exact h.textMethods (Scalar.allPlain_storage _) (by simp +decide) (by simp +decide [intoBytes])
  case h_3 => simp +decide [h.place, h.1.code, hset.code, hclear.code]
  case h_4 path hpath =>
    have htype := (h.2 path (by rw [hpath]; rfl)).code
    simp +decide [h.place, htype, h.1.code, hset.code, hclear.code]
  case h_5 path w hpath =>
    have htype := (h.2 path (by rw [hpath]; rfl)).code
    simp +decide [h.place, htype, h.1.code, hset.code, hclear.code]
  case h_6 path hpath =>
    have htype := (h.2 path (by rw [hpath]; rfl)).code
    simp +decide [h.place, htype, h.1.code, hset.code, hclear.code, hlend.code, htest.code]

theorem IsPlain.repeatedMethods (h : m.IsPlain) : ∀ x ∈ m.repeatedMethods, AllPlain x.code := by
  have hadd : m.adder.IsPlain := h.1.around (by decide)
  have hlend : m.lender.IsPlain := h.1.around (by decide)
  have hcount : m.counter.IsPlain := h.1.around (by decide)
  obtain ⟨helement, hvalue, hadded⟩ := h.element
  simp +decide [Member.repeatedMethods, h.place, h.emptying, helement, hvalue, hadded, h.1.code, hadd.code,
    hlend.code, hcount.code]

end Member

namespace Declaration

theorem allPlain_structCode {ident : Ident} {members : List Member} (hident : ident.IsPlain)
    (h : ∀ m ∈ members, m.IsPlain) : AllPlain (structCode ident members) := by
  have hname : ({ text := "new" } : Ident).IsPlain := by decide
  have hnew : AllPlain newMethod.code := by simp +decide [newMethod, Method.code, hname.code]
  have hmethods : ∀ x ∈ structMethods members, AllPlain x.code := by
    refine List.forall_mem_cons.mpr ⟨hnew, fun x hx => ?_⟩
    obtain ⟨m, hm, hx⟩ := List.mem_flatMap.mp hx
    unfold Member.methods at hx
    split at hx
    · exact (h m hm).repeatedMethods x hx
    · exact (h m hm).singleMethods x hx
  simp +decide [structCode, attributeCode, hident.code]
  exact ⟨fun m hm => ⟨(h m hm).1.code, (h m hm).storage⟩, hmethods⟩

theorem isPlainWord_repr (n : Nat) : isPlainWord n.repr = true := by
  obtain ⟨c, cs, hcs, hdigits⟩ := digits_repr n
  refine isPlainWord_iff.mpr ⟨by rw [hcs]; exact List.cons_ne_nil c cs, fun d hd => ?_⟩
  rw [hcs] at hd
  exact isWordChar_of_isNameChar (isNameChar_of_isDigit (hdigits d hd))

theorem allPlain_numberCode (n : Int) : AllPlain (numberCode n) := by
  unfold numberCode
  split <;> simp +decide [isPlainWord_repr]

theorem allPlain_enumCode {ident : Ident} {first : Variant} {others : List Variant} (hident : ident.IsPlain)
    (h : ∀ x ∈ first :: others, x.ident.IsPlain) : AllPlain (enumCode ident first others) := by
  have hvariants : ∀ x ∈ first :: others, AllPlain x.ident.code := fun x hx => (h x hx).code
  obtain ⟨hfirst, hothers⟩ := List.forall_mem_cons.mp hvariants
  simp +decide [enumCode, attributeCode, allPlain_numberCode, hident.code, hfirst]
  exact hothers

theorem allPlain_flagsCode {ident : Ident} {width : Scalar} {constants : List (Ident × Nat)}
    {table : List (String × Nat)} (hident : ident.IsPlain) (hconstants : ∀ c ∈ constants, c.1.IsPlain)
    (htable : ∀ row ∈ table, isPlainWord row.1 = true) : AllPlain (flagsCode ident width constants table) := by
  have htag : isPlainWord width.tag = true := by cases width <;> decide +kernel
  have hcode : ∀ c ∈ constants, AllPlain c.1.code := fun c hc => (hconstants c hc).code
  have hquoted : ∀ row ∈ table, isPlainWord ("\"" ++ row.1 ++ "\"") = true := fun row hrow =>
    isPlainWord_between (htable row hrow) (by decide)
  have hvalue : ∀ n : Nat, isPlainWord ("" ++ n.repr ++ "u64") = true := fun n =>
    isPlainWord_between (isPlainWord_repr n) (by decide)
  simp only [String.empty_append] at hvalue
  simp +decide [flagsCode, attributeCode, tagCode, isPlainWord_repr, hident.code, htag, hvalue]
  exact ⟨fun i n hc => hcode (i, n) hc, fun name n hrow => hquoted (name, n) hrow⟩

mutual

/-- **All words in the code of a definition are words**, if the identifiers in it and in what is in it are. -/
theorem allPlain_code : ∀ {d : Declaration}, (∀ here e, At [d] here e → e.IsPlain) → AllPlain d.code
  | struct ident members, h => by
    obtain ⟨hident, hmembers⟩ := h [] _ (.here (List.mem_singleton_self _))
    exact allPlain_structCode hident hmembers
  | enum ident first others, h => by
    obtain ⟨hident, hvariants⟩ := h [] _ (.here (List.mem_singleton_self _))
    exact allPlain_enumCode hident hvariants
  | flags ident width constants table, h => by
    obtain ⟨hident, hconstants, htable⟩ := h [] _ (.here (List.mem_singleton_self _))
    exact allPlain_flagsCode hident hconstants htable
  | module ident ds, h => by
    have hident : ident.IsPlain := h [] _ (.here (List.mem_singleton_self _))
    have hinner := allPlain_allCode fun here e hat => h (ident :: here) e (hat.module (List.mem_singleton_self _))
    rw [Declaration.code]
    simp +decide [hident.code, hinner]

theorem allPlain_allCode : ∀ {ds : List Declaration}, (∀ here d, At ds here d → d.IsPlain) → AllPlain (allCode ds)
  | [], _ => trivial
  | d :: ds, h => by
    rw [allCode, allPlain_append]
    exact ⟨allPlain_code fun here e hat => h here e (hat.mono (by simp)),
      allPlain_allCode fun here e hat => h here e (hat.mono (List.subset_cons_self ..))⟩

end

end Declaration

-- ── Names of a schema ────────────────────────────────────────────────────────────

/-- A type has enums of one sort, fields of another and names of a third. -/
def TypeDef.Declares (N : String → Prop) (P : EnumDef → Prop) (Q : Field → Prop) : TypeDef → Prop
  | .message m => m.Declares N P Q
  | .enum e    => P e

section

variable {N : String → Prop} {P : EnumDef → Prop} {Q : Field → Prop}

theorem Message.Declares.of_typesIn {m : Message} (h : m.Declares N P Q) (scope : String) (module : List String) :
    ∀ t ∈ m.typesIn scope module, t.type.Declares N P Q := by
  induction h generalizing scope module with
  | intro name enums fields messages ih =>
      rw [typesIn_eq]
      refine List.forall_mem_append.mpr ⟨List.forall_mem_append.mpr ⟨List.forall_mem_map.mpr enums, ?_⟩, ?_⟩
      · exact List.forall_mem_flatMap.mpr fun i hi => ih i hi _ _
      · exact List.forall_mem_singleton.mpr ⟨name, enums, fields, messages⟩

/-- All types of a schema have enums, fields and names of the sorts of the schema. -/
theorem Schema.Declares.of_typesIn {s : Schema} (h : s.Declares N P Q) :
    ∀ t ∈ s.typesIn, t.type.Declares N P Q := by
  rw [typesIn, Message.allTypesIn_eq]
  refine List.forall_mem_append.mpr ⟨List.forall_mem_map.mpr h.enums, ?_⟩
  exact List.forall_mem_flatMap.mpr fun m hm => (h.messages m hm).of_typesIn _ _

end

/-- The names of an enum and of its values are words. -/
def EnumDef.InWords (e : EnumDef) : Prop := isPlainWord e.name = true ∧ ∀ v ∈ e.values, isPlainWord v.name = true

theorem EnumDef.InWords.asFlags {e : EnumDef} (h : e.InWords) : e.asFlags.InWords := by
  obtain ⟨hname, hvalues⟩ := h
  have hempty : isPlainWord emptySetName = true := by decide
  refine ⟨?_, fun v hv => forall_mem_asFlags (N := fun n => isPlainWord n = true) hempty hvalues v hv⟩
  rw [name_asFlags]
  exact hname

theorem Field.name_asFlags (symbols : Symbols) (sets : List FlagSet) (message : String) (f : Field) :
    (f.asFlags symbols sets message).name = f.name := by
  unfold asFlags
  split
  · rfl
  · split <;> rfl

/-- All names of a schema are words. -/
def Schema.InWords (s : Schema) : Prop :=
  s.Declares (isPlainWord · = true) EnumDef.InWords fun f => isPlainWord f.name = true

namespace Schema

variable {source : String} {s : Schema}

/-- **All names of a schema that is read are words.** -/
theorem inWords_parse (h : parse source = .ok s) : s.InWords := by
  refine declares_parse h (fun what => ?_) (fun keyword => ?_) fun oneof => ?_
  · exact (Yields.name what).mono fun _ hname => hname.isPlainWord
  · exact (EnumDef.yields_spelled keyword).mono fun e he =>
      ⟨he.1.isPlainWord, fun v hv => IsScanned.isPlainWord (he.2 v hv).name⟩
  · exact (Field.yields_name oneof).mono fun _ hname => hname.isPlainWord

/-- They are words after the schema has been lowered. -/
theorem inWords_lower {cs : List Char} {low : Lowered} (hparse : parse source = .ok s)
    (h : (s.lower cs).result = .ok low) : low.schema.InWords := by
  rw [(lower_inv h).2.1]
  refine ((inWords_parse hparse).mapEnums fun e he => he.asFlags).mapFields fun message f hf => ?_
  rw [Field.name_asFlags]
  exact hf

namespace InWords

theorem rootModule (hs : s.InWords) : ∀ n ∈ s.rootModule, isPlainWord n = true := by
  intro n hn
  rw [Schema.rootModule, scope] at hn
  cases hpackage : s.package with
  | none =>
      rw [hpackage] at hn
      cases (show n ∈ ([] : List String) from hn)
  | some name =>
      rw [hpackage] at hn
      exact isPlainWord_nameSegments (hs.package name hpackage) hn

theorem name (hs : s.InWords) {t : PlacedType} (ht : t ∈ s.typesIn) : isPlainWord t.type.name = true := by
  obtain ⟨scope, module, type⟩ := t
  have htype := hs.of_typesIn _ ht
  cases type with
  | message m =>
      obtain ⟨hname, -, -, -⟩ := htype
      exact hname
  | enum e => exact htype.1

theorem module (hs : s.InWords) {t : PlacedType} (ht : t ∈ s.typesIn) : ∀ n ∈ t.module, isPlainWord n = true := by
  have hsnake : ∀ name, isPlainWord name = true → isPlainWord (snakeCase name) = true :=
    fun _ => isPlainWord_snakeCase
  exact forall_mem_module hsnake (fun _ => hs.name) hs.rootModule ht

/-- The modules of a scope have names that are words. -/
theorem scopeModule (hs : s.InWords) {sc : PlacedScope} (hsc : sc ∈ s.scopes) :
    ∀ n ∈ sc.module, isPlainWord n = true := by
  rcases List.mem_cons.mp hsc with rfl | hsc
  · exact hs.rootModule
  · obtain ⟨⟨scope, module, type⟩, ht, hinner⟩ := List.mem_filterMap.mp hsc
    rw [typesIn_root] at ht
    cases type with
    | enum e => cases hinner
    | message m =>
        cases hinner
        exact List.forall_mem_append.mpr
          ⟨hs.module ht, List.forall_mem_singleton.mpr (isPlainWord_snakeCase (hs.name ht))⟩

end InWords

end Schema

-- ── What is generated from words ─────────────────────────────────────────────────

/-- The identifiers of words are words. -/
theorem Ident.AreOf.isPlain {names : List String} {ids : List Ident} (h : AreOf names ids)
    (hnames : ∀ n ∈ names, isPlainWord n = true) : ∀ i ∈ ids, i.IsPlain := by
  intro i hi
  obtain ⟨n, hn, hident⟩ := exists_left_of_forall₂ h hi
  exact isPlain_of_ofName? (hnames n hn) hident

/-- The definition for an enum whose names are words. -/
theorem Generator.isPlain_enumOrFlags {scope : String} {e : EnumDef} {d : Declaration} (he : e.InWords)
    (h : (enumOrFlagsOf scope e).result = .ok d) : d.IsPlain := by
  obtain ⟨hname, hvalues⟩ := he
  unfold enumOrFlagsOf at h
  split at h
  · obtain ⟨ident, idents, hident, hidents, rfl⟩ := flagsOf_inv rfl h
    have hkept : ∀ v ∈ e.values.filter fun v => v.number ≠ 0, isPlainWord v.name = true :=
      fun v hv => hvalues v (List.mem_of_mem_filter hv)
    refine ⟨Ident.isPlain_of_ofName? hname hident, fun c hc => ?_, List.forall_mem_map.mpr hkept⟩
    exact hidents.isPlain (List.forall_mem_map.mpr hkept) c.1 (List.of_mem_zip hc).1
  · obtain ⟨ident, first, others, rfl, hident, hvariants⟩ := enumOf_inv h
    refine ⟨Ident.isPlain_of_ofName? hname hident, fun x hx => ?_⟩
    obtain ⟨v, hv, hof⟩ := exists_left_of_forall₂ hvariants hx
    exact Ident.isPlain_of_ofName? (hvalues v (EnumValue.mem_of_mem_firstsFrom hv).1) hof.1

namespace Schema

variable {source : String} {s : Schema} {low : Lowered} {ds : List Declaration} {here : List Ident}
  {d : Declaration} {definition : Definition}

/-- A path that reaches a definition is made of words. -/
theorem Reaches.isPlain {path : TypePath} {fullName : String} (h : s.Reaches ds here path fullName definition)
    (hs : s.InWords) (hds : s.declarations.result = .ok ds) : path.IsPlain := by
  obtain ⟨t, d, ht, -, -, hd, hkind, ⟨target, hfrom, hat, hname⟩, -⟩ := h
  obtain ⟨u, hu, htarget, -⟩ := exists_type_of_at hds hat hkind
  refine ⟨fun m hm => htarget.isPlain (hs.module hu) m ?_, ?_⟩
  · unfold TypePath.from? at hfrom
    split at hfrom
    · cases hfrom
      exact List.mem_append_right _ hm
    · cases hfrom
  · rw [← hname]
    exact Ident.isPlain_of_ofName? (hs.name (typeNamed?_inv ht).1) (Generator.definitionOf_inv hd).1

/-- Every definition for a lowered schema is made of words. -/
theorem isPlain_of_at (hlow : (FlagSchema.lower source).result = .ok low) (hs : low.schema.InWords)
    (hds : low.schema.declarations.result = .ok ds) (hat : At ds here d) (hd : d.definition? = some definition) :
    d.IsPlain := by
  obtain ⟨⟨scope, module, type⟩, ht, hhere, hok⟩ := exists_type_of_at hds hat hd
  have htype := hs.of_typesIn _ ht
  cases type with
  | enum e => exact Generator.isPlain_enumOrFlags htype hok
  | message m =>
      have hstruct := hok
      obtain ⟨-, -, hfields, -⟩ := htype
      obtain ⟨ident, results, hident, hresults, rfl⟩ := Generator.structOf_inv hstruct
      refine ⟨Ident.isPlain_of_ofName? (hs.name ht) hident, fun member hmember => ⟨?_, fun path hpath => ?_⟩⟩
      · obtain ⟨result, hresult, hid⟩ := List.mem_filterMap.mp hmember
        cases hid
        obtain ⟨f, hf, hmade⟩ := exists_left_of_forall₂ hresults hresult
        obtain ⟨-, -, -, hname⟩ := Generator.member_inv hmade
        exact Ident.isPlain_of_ofName? (isPlainWord_snakeCase (hfields f hf)) (hname member rfl)
      · obtain ⟨fullName, definition, -, hreaches⟩ :=
          reaches_holding_of_member hlow hds ht hhere hok hmember hpath
        exact hreaches.isPlain hs hds

theorem allPlain_inModules {items : List Declaration} {ids : List Ident} (h : AllPlain (allCode items))
    (hids : ∀ i ∈ ids, i.IsPlain) : AllPlain (allCode (inModules items ids)) := by
  induction ids with
  | nil => exact h
  | cons i ids ih =>
      obtain ⟨hi, hids⟩ := List.forall_mem_cons.mp hids
      simp +decide [inModules, allCode, Declaration.code, hi.code, ih hids]

/-- **All words in the code for a source are words.** -/
theorem allPlain_declarations (hlow : (FlagSchema.lower source).result = .ok low)
    (hds : low.schema.declarations.result = .ok ds) : AllPlain (allCode ds) := by
  obtain ⟨s, hparse, hlower⟩ := FlagSchema.lower_inv hlow
  have hs := inWords_lower hparse hlower
  obtain ⟨items, ids, hfills, hids, rfl⟩ := declarations_inv hds
  refine allPlain_inModules (allPlain_allCode fun here d hat => ?_) (hids.isPlain hs.rootModule)
  cases d with
  | module ident body =>
      obtain ⟨sc, hsc, -, -, names, hnames, hpath⟩ := hfills.of_inside hat.inside
      have hmodule := hs.scopeModule hsc
      rw [hnames, List.forall_mem_append] at hmodule
      exact hpath.isPlain hmodule.2 ident (List.mem_append_right _ (List.mem_singleton_self _))
  | _ => exact isPlain_of_at hlow hs hds hat.inModules rfl

end Schema

/-- **The text of the accessors is read back as their code.** Behind the line in front it is the text of the code for
    the declarations, and between blanks and brackets this text has the words of the code. -/
theorem accessorsOf_read? {source text : String} (h : (accessorsOf source).result = .ok text) :
    ∃ low ds body, (lower source).result = .ok low ∧ low.schema.declarations.result = .ok ds ∧
      text = Schema.accessorsHeader ++ body ++ "\n" ∧ Code.read? body = some (allCode ds) := by
  obtain ⟨low, ds, hlow, hds, rfl⟩ := accessorsOf_inv h
  exact ⟨low, ds, _, hlow, hds, rfl, Code.read?_renderAll (Schema.allPlain_declarations hlow hds)⟩

end FlagSchema
