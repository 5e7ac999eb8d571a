import FlagSchema.Proofs.FieldTypes
import FlagSchema.Proofs.Items

/-!
# Code of structures

What stands in the code for a structure: its fields, each with the type that stores it, and its methods. A field
that refers to a type writes it wherever the type is stored, looked at, taken or lent.

* **`Code.HasStruct`**: code has a structure with certain members in a module.
* **`Member.Writes`**: how the accessors of a field write the type that the field refers to.
-/

namespace FlagSchema

open Declaration

-- ── Structures ───────────────────────────────────────────────────────────────────

/-- A method as an item. -/
def Method.item (x : Method) : CodeItem :=
  ⟨words "pub fn" ++ x.ident.code ++ parens x.parameters ++ x.result, x.body⟩

namespace Code

/-- Code has a structure in a module: an item with its fields, and one whose items are its methods. The first method
    makes a structure of the defaults of its fields. -/
def HasStruct (code : Code) (here : List Ident) (ident : Ident) (members : List Member) : Prop :=
  ∃ inner methods, Inside code (here.map Ident.render) inner ∧
    ⟨words "#" ++ brackets (words "derive" ++ parens (words "Clone , Debug , Default , PartialEq")) ++
        words "pub struct" ++ ident.code,
      members.flatMap fun m => m.ident.code ++ words ":" ++ m.storage ++ words ","⟩ ∈ inner.items ∧
    ⟨words "impl" ++ ident.code, methods⟩ ∈ inner.items ∧
    methods.items =
      ⟨words "pub fn" ++ [.word "new"] ++ parens [] ++ words "-> Self", words "Self :: default" ++ parens []⟩ ::
        (members.flatMap Member.methods).map Method.item

end Code

open Code

-- ── Methods ──────────────────────────────────────────────────────────────────────

/-- The words of a path are no braces. -/
@[simp] theorem TypePath.noBraces_code (p : TypePath) : NoBraces p.code := by
  have hups : ∀ c ∈ List.replicate p.ups (words "super ::"), NoBraces c := by
    intro c hc
    rw [List.eq_of_mem_replicate hc]
    exact noBraces_words _
  have hmodules : ∀ c ∈ p.modules.map fun m => m.code ++ words "::", NoBraces c := by
    simp
  rw [TypePath.code, noBraces_append, noBraces_append, noBraces_flatten, noBraces_flatten]
  exact ⟨⟨hups, hmodules⟩, noBraces_ident _⟩

namespace Member

variable {m : Member} {x : Method}

@[simp] theorem noBraces_element (m : Member) : NoBraces m.element.1 := by
  unfold element
  split <;> simp

theorem noBraces_singleMethods (h : x ∈ m.singleMethods) : NoBraces x.result := by
  revert x
  unfold singleMethods textMethods
  split <;> simp [looking, taking, lending, emptying, changing]

theorem noBraces_repeatedMethods (h : x ∈ m.repeatedMethods) : NoBraces x.result := by
  revert x
  simp [repeatedMethods, looking, taking, lending, emptying, changing]

end Member

/-- A method is an item. -/
theorem Method.consists_code {x : Method} (h : NoBraces x.result) : Consists x.code [x.item] :=
  consists_singleton (by simp [h]) _

/-- The methods of a structure are items. -/
theorem Declaration.items_structMethods (members : List Member) :
    Code.items ((structMethods members).flatMap Method.code) = (structMethods members).map Method.item := by
  have hconsists : Consists ((structMethods members).flatMap Method.code)
      ((structMethods members).flatMap fun x => [x.item]) := by
    refine .flatMap fun x hx => Method.consists_code ?_
    rcases List.mem_cons.mp hx with rfl | hx
    · exact noBraces_words _
    · obtain ⟨m, -, hx⟩ := List.mem_flatMap.mp hx
      unfold Member.methods at hx
      split at hx
      · exact Member.noBraces_repeatedMethods hx
      · exact Member.noBraces_singleMethods hx
  rw [hconsists.items, List.map_eq_flatMap]

/-- **A structure among definitions is one in their code.** -/
theorem Declaration.At.hasStruct {ds : List Declaration} {here : List Ident} {ident : Ident} {members : List Member}
    (h : At ds here (.struct ident members)) : (allCode ds).HasStruct here ident members := by
  obtain ⟨inner, hinner, hitems⟩ := h.code
  rw [(consists_struct ..).items] at hitems
  exact ⟨inner, _, hinner, hitems (List.mem_cons_self ..), hitems (List.mem_cons_of_mem _ (List.mem_singleton_self _)),
    items_structMethods members⟩

-- ── Types of fields ──────────────────────────────────────────────────────────────

namespace Member

/-- How the accessors of a field write the type that the field refers to, by what the type is and by how many values
    the field has. A message is stored in a box or in a vector; an enum and a set of flags are stored as numbers. -/
inductive Writes (m : Member) (type : Code) : Definition → Prop where
  | message (single : m.isRepeated = false)
      (storage : m.storage = words "Option < Box <" ++ type ++ words ">>")
      (looked : looking m.ident (words "Option < &" ++ type ++ words ">")
        (m.place ++ words ". as_deref" ++ parens []) ∈ m.methods)
      (taken : taking m.setter type
        (m.place ++ words "= Some" ++ parens (words "Box :: new" ++ parens (words "v")) ++ words ";") ∈ m.methods)
      (lent : lending m.lender type
        (m.place ++ words ". get_or_insert_with" ++ parens (words "Box :: default")) ∈ m.methods) :
      Writes m type .message
  | messages (several : m.isRepeated = true)
      (storage : m.storage = words "Vec <" ++ type ++ words ">")
      (looked : looking m.ident (words "&" ++ brackets type) (words "&" ++ m.place) ∈ m.methods)
      (taken : taking m.adder type (m.place ++ words ". push" ++ parens (words "v") ++ words ";") ∈ m.methods)
      (lent : lending m.lender (words "Vec <" ++ type ++ words ">") (words "& mut" ++ m.place) ∈ m.methods) :
      Writes m type .message
  | enum (single : m.isRepeated = false)
      (storage : m.storage = words "i32")
      (looked : looking m.ident type
        (type ++ words ":: from_i32" ++ parens m.place ++ words ". unwrap_or_default" ++ parens []) ∈ m.methods)
      (taken : taking m.setter type (m.place ++ words "= v as i32 ;") ∈ m.methods) :
      Writes m type .enum
  | enums (several : m.isRepeated = true)
      (storage : m.storage = words "Vec < i32 >")
      (taken : taking m.adder type
        (m.place ++ words ". push" ++ parens (words "v as i32") ++ words ";") ∈ m.methods) :
      Writes m type .enum
  | flags {width : Scalar} (single : m.isRepeated = false)
      (storage : m.storage = width.storage)
      (looked : looking m.ident type (type ++ words ":: from_bits_truncate" ++ parens m.place) ∈ m.methods)
      (taken : taking m.setter type (m.place ++ words "= v . bits" ++ parens [] ++ words ";") ∈ m.methods) :
      Writes m type (.flags width)
  | flagSets {width : Scalar} (several : m.isRepeated = true)
      (storage : m.storage = words "Vec <" ++ width.storage ++ words ">")
      (taken : taking m.adder type
        (m.place ++ words ". push" ++ parens (words "v . bits" ++ parens []) ++ words ";") ∈ m.methods) :
      Writes m type (.flags width)

/-- **The accessors of a field write the path to the type that it refers to.** -/
theorem writes_of_holding {m : Member} {definition : Definition} {path : TypePath}
    (h : m.holding = definition.holding path) : m.Writes path.code definition := by
  obtain ⟨ident, isRepeated, holding⟩ := m
  cases h
  cases isRepeated <;> cases definition
  case false.message =>
    exact .message rfl rfl (.head _) (.tail _ (.tail _ (.head _))) (.tail _ (.tail _ (.tail _ (.head _))))
  case false.enum => exact .enum rfl rfl (.head _) (.tail _ (.head _))
  case false.flags width => exact .flags rfl rfl (.head _) (.tail _ (.head _))
  case true.message =>
    exact .messages rfl rfl (.head _) (.tail _ (.tail _ (.head _))) (.tail _ (.tail _ (.tail _ (.head _))))
  case true.enum => exact .enums rfl rfl (.tail _ (.tail _ (.head _)))
  case true.flags width => exact .flagSets rfl rfl (.tail _ (.tail _ (.head _)))

end Member

end FlagSchema
