import FlagSchema.Proofs.Emission
import FlagSchema.Proofs.Numerals

/-!
# Items of code

The code of the accessors, read as a compiler reads it. An item ends with a group in braces; a module is an item
that holds others; a path leads out of modules and into others, word by word, to a name.

* **`Code.items`**: the items of code, each a head and a body.
* **`Code.Inside`**: the code in the modules with given names.
* **`Code.resolve?`**: the module that a path leads to, and the name there.
* **`Code.decimal?`**: the number that a word stands for.
* **`Declaration.items_allCode`**: the items of several definitions are those of each.
* **`Declaration.At.code`**: a definition in a module has its items in the code of the module.
* **`Declaration.exists_defines`**: one of these items defines the type.
-/

namespace FlagSchema

open Declaration

-- ── Items ────────────────────────────────────────────────────────────────────────

/-- A group in braces. -/
def CodeTree.isBraces : CodeTree → Bool
  | group .braces _ => true
  | _               => false

/-- An item of code: what introduces it, and what stands in its braces. -/
structure CodeItem where
  head : Code
  body : Code

/-- An item as code. -/
def CodeItem.code (i : CodeItem) : Code := i.head ++ braces i.body

namespace Code

/-- The items of code behind the front of one. -/
def itemsFrom (front : Code) : Code → List CodeItem
  | []                          => []
  | .group .braces body :: rest => ⟨front, body⟩ :: itemsFrom [] rest
  | t :: rest                   => itemsFrom (front ++ [t]) rest

/-- The items of code: each goes up to a group in braces. -/
def items (code : Code) : List CodeItem := itemsFrom [] code

/-- No group in braces stands in code but inside of other groups. -/
def NoBraces (code : Code) : Prop := ∀ t ∈ code, t.isBraces = false

/-- Code consists of items. -/
def Consists (code : Code) (is : List CodeItem) : Prop :=
  code = is.flatMap CodeItem.code ∧ ∀ i ∈ is, NoBraces i.head

variable {code code' front : Code} {is is' : List CodeItem}

@[simp] theorem noBraces_nil : NoBraces [] := nofun

@[simp] theorem noBraces_append : NoBraces (code ++ code') ↔ NoBraces code ∧ NoBraces code' :=
  List.forall_mem_append

@[simp] theorem noBraces_flatten {codes : List Code} : NoBraces codes.flatten ↔ ∀ c ∈ codes, NoBraces c := by
  simp only [NoBraces, List.mem_flatten]
  exact ⟨fun h c hc t ht => h t ⟨c, hc, ht⟩, fun h t ⟨c, hc, ht⟩ => h c hc t ht⟩

@[simp] theorem noBraces_word (text : String) : NoBraces [.word text] := by
  simp [NoBraces, CodeTree.isBraces]

@[simp] theorem noBraces_words (text : String) : NoBraces (words text) := by
  simp [NoBraces, words, CodeTree.isBraces]

@[simp] theorem noBraces_parens (inner : Code) : NoBraces (parens inner) := by
  simp [NoBraces, parens, CodeTree.isBraces]

@[simp] theorem noBraces_brackets (inner : Code) : NoBraces (brackets inner) := by
  simp [NoBraces, brackets, CodeTree.isBraces]

@[simp] theorem noBraces_ident (i : Ident) : NoBraces i.code := noBraces_word _

@[simp] theorem noBraces_attributeCode (name arguments : String) : NoBraces (attributeCode name arguments) := by
  simp [attributeCode]

theorem itemsFrom_append (h : NoBraces front) (head rest : Code) :
    itemsFrom head (front ++ rest) = itemsFrom (head ++ front) rest := by
  induction front generalizing head with
  | nil => rw [List.nil_append, List.append_nil]
  | cons t front ih =>
      obtain ⟨ht, hfront⟩ := List.forall_mem_cons.mp h
      have hstep : itemsFrom head (t :: (front ++ rest)) = itemsFrom (head ++ [t]) (front ++ rest) := by
        rw [itemsFrom]
        rintro body rfl
        cases ht
      rw [List.cons_append, hstep, ih hfront, List.append_assoc, List.singleton_append]

/-- **Code that consists of items has these items**, whatever follows it. -/
theorem Consists.items_append (h : Consists code is) (rest : Code) : items (code ++ rest) = is ++ items rest := by
  obtain ⟨rfl, hheads⟩ := h
  induction is with
  | nil => rfl
  | cons i is ih =>
      obtain ⟨hi, hheads⟩ := List.forall_mem_cons.mp hheads
      rw [List.flatMap_cons, CodeItem.code, List.append_assoc, List.append_assoc, items, itemsFrom_append hi]
      exact congrArg (i :: ·) (ih hheads)

theorem Consists.items (h : Consists code is) : code.items = is := by
  have hitems := h.items_append []
  rwa [List.append_nil, show Code.items [] = [] from rfl, List.append_nil] at hitems

theorem Consists.append (h : Consists code is) (h' : Consists code' is') : Consists (code ++ code') (is ++ is') :=
  ⟨by rw [h.1, h'.1, List.flatMap_append], List.forall_mem_append.mpr ⟨h.2, h'.2⟩⟩

/-- One item. -/
theorem consists_singleton {head : Code} (h : NoBraces head) (body : Code) :
    Consists (head ++ braces body) [⟨head, body⟩] :=
  ⟨(List.append_nil _).symm, List.forall_mem_singleton.mpr h⟩

theorem Consists.flatMap {α : Type} {f : α → Code} {g : α → List CodeItem} {xs : List α}
    (h : ∀ x ∈ xs, Consists (f x) (g x)) : Consists (xs.flatMap f) (xs.flatMap g) := by
  induction xs with
  | nil => exact ⟨rfl, nofun⟩
  | cons x xs ih =>
      obtain ⟨hx, hxs⟩ := List.forall_mem_cons.mp h
      exact hx.append (ih hxs)

-- ── Modules and paths ────────────────────────────────────────────────────────────

/-- The code in the modules with given names, the last one innermost. -/
inductive Inside : Code → List String → Code → Prop where
  | here {code : Code} : Inside code [] code
  | module {code body inner : Code} {name : String} {names : List String}
      (hmodule : ⟨words "pub mod" ++ [.word name], body⟩ ∈ items code) (hinner : Inside body names inner) :
      Inside code (name :: names) inner

/-- Reads a path that starts in a module and leads to a name: into one module after the other. -/
def enter? (here : List String) : Code → Option (List String × String)
  | [.word name]                     => some (here, name)
  | .word name :: .word "::" :: rest => if name = "super" then none else enter? (here ++ [name]) rest
  | _                                => none

/-- Reads a path that starts in a module and leads to a name: out of as many modules as it begins with `super ::`,
    and on from there. -/
def resolve? (here : List String) : Code → Option (List String × String)
  | .word "super" :: .word "::" :: rest => if here.isEmpty then none else resolve? here.dropLast rest
  | path                                => enter? here path

variable {path : Code} {here : List String} {ms : List Ident}

/-- Modules and a name lead into the modules to the name. -/
theorem enter?_code (h : ∀ m ∈ ms, m.render ≠ "super") (here : List String) (name : Ident) :
    enter? here ((ms.map fun m => m.code ++ words "::").flatten ++ name.code) =
      some (here ++ ms.map Ident.render, name.render) := by
  induction ms generalizing here with
  | nil => rw [List.map_nil, List.map_nil, List.append_nil]; rfl
  | cons m ms ih =>
      obtain ⟨hm, hms⟩ := List.forall_mem_cons.mp h
      have hstep : ∀ rest, enter? here ((m.code ++ words "::") ++ rest) = enter? (here ++ [m.render]) rest := by
        intro rest
        simp [Ident.code, words, Text.splitAt, enter?, hm]
      rw [List.map_cons, List.flatten_cons, List.append_assoc, hstep, ih hms, List.append_assoc]
      rfl

theorem resolve?_code (h : ∀ m ∈ ms, m.render ≠ "super") (here : List String) (name : Ident) :
    resolve? here ((ms.map fun m => m.code ++ words "::").flatten ++ name.code) =
      some (here ++ ms.map Ident.render, name.render) := by
  rw [← enter?_code h]
  cases ms with
  | nil => simp [Ident.code, resolve?]
  | cons m ms =>
      have hm := h m (List.mem_cons_self ..)
      simp [Ident.code, words, Text.splitAt, resolve?, hm]

/-- Each `super ::` leads out of a module. -/
theorem resolve?_supers {n : Nat} (h : n ≤ here.length) (rest : Code) :
    resolve? here ((List.replicate n (words "super ::")).flatten ++ rest) =
      resolve? (here.take (here.length - n)) rest := by
  induction n generalizing here with
  | zero => rw [Nat.sub_zero, List.take_length]; rfl
  | succ n ih =>
      have hne : here ≠ [] := List.ne_nil_of_length_pos (by omega)
      have hstep : ∀ rest, resolve? here (words "super ::" ++ rest) = resolve? here.dropLast rest := by
        intro rest
        simp [words, Text.splitAt, resolve?, hne]
      have hlength : here.dropLast.length = here.length - 1 := List.length_dropLast
      rw [List.replicate_succ, List.flatten_cons, List.append_assoc, hstep, ih (by omega), hlength,
        List.dropLast_eq_take, List.take_take]
      congr 2
      omega

-- ── Numbers ──────────────────────────────────────────────────────────────────────

/-- The number that a word of digits stands for. -/
def decimal? (word : String) : Option Nat := Text.ofDigits? 10 word.toList

@[simp] theorem decimal?_repr (n : Nat) : decimal? n.repr = some n := by
  rw [decimal?, Nat.toList_repr]
  exact Text.ofDigits?_toDigits (by decide) (by decide) n

end Code

-- ── Definitions ──────────────────────────────────────────────────────────────────

/-- An item defines a type under a name: a structure or an enum whose head ends with the name, or a flag type, for
    which a library takes a structure with the type of its words. -/
def CodeItem.Defines (i : CodeItem) (name : String) : Definition → Prop
  | .message     => words "pub struct" ++ [.word name] <:+ i.head
  | .enum        => words "pub enum" ++ [.word name] <:+ i.head
  | .flags width => i.head = words ":: protobitmap :: bitflags :: bitflags !" ∧
    ∃ inner, i.body.items = [inner] ∧ words "pub struct" ++ [.word name] ++ words ":" ++ width.storage <:+ inner.head

namespace Declaration

open Code

variable {ds items : List Declaration} {d : Declaration} {path : List Ident} {ident : Ident}

/-- A structure is two items: its fields, and its methods. -/
theorem consists_struct (ident : Ident) (members : List Member) :
    Consists (code (.struct ident members)) [
      ⟨words "#" ++ brackets (words "derive" ++ parens (words "Clone , Debug , Default , PartialEq")) ++
          words "pub struct" ++ ident.code,
        members.flatMap fun m => m.ident.code ++ words ":" ++ m.storage ++ words ","⟩,
      ⟨words "impl" ++ ident.code, (structMethods members).flatMap Method.code⟩] := by
  refine ⟨?_, by simp⟩
  simp only [code, structCode, attributeCode, CodeItem.code, List.flatMap_cons, List.flatMap_nil,
    List.append_assoc, List.append_nil]

/-- An enum is three items: its variants, the reading of a number, and its default. -/
theorem consists_enum (ident : Ident) (first : Variant) (others : List Variant) :
    Consists (code (.enum ident first others)) [
      ⟨words "#" ++ brackets (words "allow" ++ parens (words "non_camel_case_types")) ++
          words "#" ++ brackets (words "derive" ++ parens (words "Clone , Copy , Debug , PartialEq , Eq , Hash")) ++
          words "#" ++ brackets (words "repr" ++ parens (words "i32")) ++ words "pub enum" ++ ident.code,
        (first :: others).flatMap fun x => x.ident.code ++ words "=" ++ numberCode x.number ++ words ","⟩,
      ⟨words "impl" ++ ident.code,
        words "pub fn from_i32" ++ parens (words "v : i32") ++ words "-> Option <" ++ ident.code ++ words ">" ++
          braces (words "match v" ++ braces
            (((first :: others).flatMap fun x => numberCode x.number ++ words "=> Some" ++
              parens (ident.code ++ words "::" ++ x.ident.code) ++ words ",") ++ words "_ => None ,"))⟩,
      ⟨words "impl Default for" ++ ident.code,
        words "fn default" ++ parens [] ++ words "-> Self" ++ braces (ident.code ++ words "::" ++ first.ident.code)⟩]
    := by
  refine ⟨?_, by simp⟩
  simp only [code, enumCode, attributeCode, CodeItem.code, List.flatMap_cons, List.flatMap_nil,
    List.append_assoc, List.append_nil]

/-- A flag type is two items: its constants, and what it has in common with other flag types. -/
theorem consists_flags (ident : Ident) (width : Scalar) (constants : List (Ident × Nat))
    (table : List (String × Nat)) :
    Consists (code (.flags ident width constants table)) [
      ⟨words ":: protobitmap :: bitflags :: bitflags !",
        words "#" ++ brackets (words "derive" ++ parens (words "Default")) ++
          words "pub struct" ++ ident.code ++ words ":" ++ width.storage ++ braces
            (constants.flatMap fun (i, n) =>
              words "#" ++ brackets (words "allow" ++ parens (words "non_upper_case_globals")) ++
                words "const" ++ i.code ++ words "=" ++ [.word (toString n)] ++ words ";")⟩,
      ⟨words "impl :: protobitmap :: Bitmap for" ++ ident.code,
        words "const WIDTH : :: protobitmap :: TypeTag =" ++ tagCode width ++ words ";" ++
          words "const FLAGS : & 'static" ++ brackets (parens (words "& 'static str , u64")) ++ words "= &" ++
          brackets (table.flatMap fun (name, n) =>
            parens [.word ("\"" ++ name ++ "\""), .word ",", .word (toString n ++ "u64")] ++ words ",") ++
          words ";" ++
          words "fn to_bits" ++ parens (words "self") ++ words "-> u64" ++
          braces (words "self . bits" ++ parens [] ++ words "as u64") ++
          words "fn from_bits_u64" ++ parens (words "bits : u64") ++ words "-> Option < Self >" ++
          braces (words ":: core :: convert :: TryFrom :: try_from" ++ parens (words "bits") ++
            words ". ok" ++ parens [] ++ words ". and_then" ++ parens (words "Self :: from_bits"))⟩] := by
  refine ⟨?_, by simp⟩
  simp only [code, flagsCode, attributeCode, CodeItem.code, List.flatMap_cons, List.flatMap_nil,
    List.append_assoc, List.append_nil]

@[simp] theorem noBraces_storage (s : Scalar) : NoBraces s.storage := by
  cases s <;> exact noBraces_words _

/-- A module is one item. -/
theorem consists_module (ident : Ident) (ds : List Declaration) :
    Consists (code (.module ident ds)) [⟨words "pub mod" ++ ident.code, allCode ds⟩] := by
  rw [code]
  exact consists_singleton (by simp) _

/-- Every definition consists of items. -/
theorem consists_code (d : Declaration) : Consists d.code d.code.items := by
  obtain ⟨is, his⟩ : ∃ is, Consists d.code is := by
    cases d with
    | struct ident members              => exact ⟨_, consists_struct ..⟩
    | enum ident first others           => exact ⟨_, consists_enum ..⟩
    | flags ident width constants table => exact ⟨_, consists_flags ..⟩
    | module ident declarations         => exact ⟨_, consists_module ..⟩
  rwa [his.items]

/-- **One of the items of a definition defines its type**, under its identifier. -/
theorem exists_defines {definition : Definition} (h : d.definition? = some definition) :
    ∃ i ∈ d.code.items, i.Defines d.ident.render definition := by
  cases d with
  | struct ident members =>
      cases h
      rw [(consists_struct ..).items]
      exact ⟨_, List.mem_cons_self .., _, List.append_assoc .. |>.symm⟩
  | enum ident first others =>
      cases h
      rw [(consists_enum ..).items]
      exact ⟨_, List.mem_cons_self .., _, List.append_assoc .. |>.symm⟩
  | flags ident width constants table =>
      cases h
      rw [(consists_flags ..).items]
      refine ⟨_, List.mem_cons_self .., rfl, _, (consists_singleton (by simp) _).items, ?_⟩
      exact ⟨words "#" ++ brackets (words "derive" ++ parens (words "Default")),
        by simp [Ident.code, Declaration.ident]⟩
  | module ident declarations => cases h

theorem allCode_eq (ds : List Declaration) : allCode ds = ds.flatMap code := by
  induction ds with
  | nil => rfl
  | cons d ds ih => rw [allCode, ih, List.flatMap_cons]

/-- **The items of several definitions are those of each**, in their order. -/
theorem items_allCode (ds : List Declaration) : (allCode ds).items = ds.flatMap fun d => d.code.items := by
  rw [allCode_eq]
  exact (Consists.flatMap fun d _ => consists_code d).items

theorem items_subset (h : d ∈ ds) : d.code.items ⊆ (allCode ds).items := by
  rw [items_allCode]
  exact fun i hi => List.mem_flatMap.mpr ⟨d, h, hi⟩

/-- **The modules of definitions are modules of their code.** -/
theorem Inside.code (h : Declaration.Inside ds path items) :
    Code.Inside (allCode ds) (path.map Ident.render) (allCode items) := by
  induction h with
  | here => exact .here
  | module hmodule _ ih =>
      refine .module (items_subset hmodule ?_) ih
      rw [(consists_module ..).items]
      exact List.mem_singleton_self _

/-- **A definition in a module has its items in the code of the module.** -/
theorem At.code (h : At ds path d) :
    ∃ inner, Code.Inside (allCode ds) (path.map Ident.render) inner ∧ d.code.items ⊆ inner.items := by
  obtain ⟨items, hinside, hd⟩ := h
  exact ⟨_, hinside.code, items_subset hd⟩

end Declaration

end FlagSchema
