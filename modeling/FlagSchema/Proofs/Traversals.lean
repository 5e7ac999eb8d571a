import Mathlib.Data.List.Flatten
import Mathlib.Data.List.Perm.Basic
import FlagSchema.Proofs.Erasure

/-!
# The walks over a schema

The messages and enums of a schema are walked more than once. Symbols are collected from the enums of a message,
the messages nested in it and then the message itself, modules are collected along with them, and to read or
change the enums alone there is a walk of its own. They come to the types in different orders, but none of them
leaves a type out or makes one up, so they give the same full names.

* **`Message.messagesIn`**, **`Schema.messagesIn`**: the messages at every depth.
* **`Schema.declared`**: what the enums and the messages declare, each from its own walk.
* **`Schema.declared_perm`**: these are the definitions that symbols are collected from, in another order.
* **`Schema.traversals_agree`**: symbols, modules and declarations have the same names, and a name that is
  declared once stands for its declaration.
-/

namespace FlagSchema

-- ── The messages of a schema ─────────────────────────────────────────────────────

namespace Message

mutual

/-- A message found in a scope, then those nested in it, each with the full name of the scope that declares it. -/
def messagesIn (scope : String) : Message → List (String × Message)
  | ⟨name, position, fields, messages, enums, settings, oneofs⟩ =>
    (scope, ⟨name, position, fields, messages, enums, settings, oneofs⟩) ::
      allMessagesIn (joinName scope name) messages

/-- The messages that several messages of a scope bring. -/
def allMessagesIn (scope : String) : List Message → List (String × Message)
  | []      => []
  | m :: ms => messagesIn scope m ++ allMessagesIn scope ms

end

theorem allMessagesIn_eq (scope : String) (ms : List Message) :
    allMessagesIn scope ms = ms.flatMap (messagesIn scope) := by
  induction ms with
  | nil => rfl
  | cons m ms ih => rw [allMessagesIn, ih, List.flatMap_cons]

/-- The messages that a message brings are itself and those of the messages nested in it. -/
theorem messagesIn_eq (scope : String) (m : Message) :
    messagesIn scope m = (scope, m) :: m.messages.flatMap (messagesIn (joinName scope m.name)) := by
  cases m
  rw [messagesIn, allMessagesIn_eq]

/-- A message found in a scope, by its full name. -/
def named (scope : String) (m : Message) : String × Definition :=
  (joinName scope m.name, .message)

/-- What the enums of a message declare, then what the messages that it brings do. -/
def declared (scope : String) (m : Message) : List (String × Definition) :=
  (enumsIn scope m).map (fun x => x.2.named x.1) ++ (messagesIn scope m).map (fun x => x.2.named x.1)

/-- **The definitions of a message are what its enums and its messages declare**, in another order. -/
theorem declared_perm (scope : String) (m : Message) : (declared scope m).Perm (definitions scope m) := by
  induction m using nested_induction generalizing scope with
  | step m ih =>
      let inner := joinName scope m.name
      let enums := m.messages.flatMap fun i => (enumsIn inner i).map fun x => x.2.named x.1
      let messages := m.messages.flatMap fun i => (messagesIn inner i).map fun x => x.2.named x.1
      have hdeclared : declared scope m =
          m.enums.map (EnumDef.named inner) ++ enums ++ ([m.named scope] ++ messages) := by
        rw [declared, enumsIn_eq, messagesIn_eq, List.map_append, List.map_map, List.map_flatMap, List.map_cons,
          List.map_flatMap]
        rfl
      have hnested : (enums ++ messages).Perm (m.messages.flatMap (definitions inner)) :=
        (List.flatMap_append_perm ..).trans (List.Perm.flatMap_left _ fun i hi => ih i hi inner)
      -- the message itself comes before those nested in it on one side and behind them on the other
      rw [hdeclared, definitions_parts, List.append_assoc, List.append_assoc]
      refine .append_left _ ?_
      calc (enums ++ ([m.named scope] ++ messages)).Perm (enums ++ (messages ++ [m.named scope])) :=
              .append_left _ List.perm_append_comm
        _ = enums ++ messages ++ [m.named scope] := (List.append_assoc ..).symm
        _ |>.Perm (m.messages.flatMap (definitions inner) ++ [m.named scope]) := hnested.append_right _

end Message

-- ── What a schema declares ───────────────────────────────────────────────────────

namespace Schema

/-- Every message with the full name of the scope that declares it. -/
def messagesIn (s : Schema) : List (String × Message) :=
  Message.allMessagesIn s.scope s.messages

/-- What the enums of a schema declare, then what its messages do, at every depth. -/
def declared (s : Schema) : List (String × Definition) :=
  s.enumsIn.map (fun x => x.2.named x.1) ++ s.messagesIn.map (fun x => x.2.named x.1)

/-- The full names of the enums and of the messages of a schema. -/
def fullNames (s : Schema) : List String :=
  s.enumsIn.map (fun x => joinName x.1 x.2.name) ++ s.messagesIn.map (fun x => joinName x.1 x.2.name)

variable {s : Schema}

/-- **The definitions of a schema are what its enums and its messages declare**, in another order. -/
theorem declared_perm (s : Schema) : s.declared.Perm s.definitions := by
  let enums := s.messages.flatMap fun m => (Message.enumsIn s.scope m).map fun x => x.2.named x.1
  let messages := s.messages.flatMap fun m => (Message.messagesIn s.scope m).map fun x => x.2.named x.1
  have hdeclared : s.declared = s.enums.map (EnumDef.named s.scope) ++ (enums ++ messages) := by
    rw [declared, enumsIn, messagesIn, Message.allEnumsIn_eq, Message.allMessagesIn_eq, List.map_append,
      List.map_map, List.map_flatMap, List.map_flatMap, List.append_assoc]
    rfl
  rw [hdeclared, definitions, Message.allDefinitions_eq]
  exact .append_left _ <|
    (List.flatMap_append_perm ..).trans (List.Perm.flatMap_left _ fun m _ => m.declared_perm s.scope)

theorem fullNames_eq (s : Schema) : s.fullNames = s.declared.map Prod.fst := by
  rw [declared, List.map_append, List.map_map, List.map_map]
  rfl

/-- The names that are collected are those of the enums and the messages. -/
theorem fullNames_perm (s : Schema) : s.fullNames.Perm (s.definitions.map Prod.fst) := by
  rw [fullNames_eq]
  exact s.declared_perm.map _

-- ── Looking names up ─────────────────────────────────────────────────────────────

/-- A table answers for its keys. -/
theorem isSome_lookup_iff {β : Type} {k : String} {table : List (String × β)} :
    (table.lookup k).isSome = true ↔ k ∈ table.map Prod.fst := by
  rw [← not_iff_not, Bool.not_eq_true, Option.isSome_eq_false_iff, Option.isNone_iff_eq_none,
    List.lookup_eq_none_iff, List.mem_map]
  constructor
  · rintro h ⟨entry, hentry, rfl⟩
    have := h entry hentry
    simp at this
  · intro h entry hentry
    exact bne_iff_ne.mpr fun hk => h ⟨entry, hentry, hk.symm⟩

/-- For a key that a table has once, it answers with the entry of that key. -/
theorem lookup_of_count_eq_one {β : Type} {k : String} {v : β} {table : List (String × β)}
    (h : (table.map Prod.fst).count k = 1) (hmem : (k, v) ∈ table) : table.lookup k = some v := by
  obtain ⟨front, back, rfl⟩ := List.append_of_mem hmem
  rw [List.map_append, List.map_cons, List.count_append, List.count_cons_self] at h
  have hfront : k ∉ front.map Prod.fst := List.count_eq_zero.mp (by omega)
  refine List.lookup_eq_some_iff.mpr ⟨front, back, rfl, fun entry hentry => ?_⟩
  exact bne_iff_ne.mpr fun hk => hfront (List.mem_map.mpr ⟨entry, hentry, hk.symm⟩)

/-- What is declared once is found by its name. -/
theorem get?_of_declared {fullName : String} {d : Definition} (h : s.fullNames.count fullName = 1)
    (hmem : (fullName, d) ∈ s.declared) : (Symbols.ofSchema s).get? fullName = some d := by
  have hcount : (s.definitions.reverse.map Prod.fst).count fullName = 1 := by
    rw [List.map_reverse, List.count_reverse, ← s.fullNames_perm.count_eq, h]
  exact lookup_of_count_eq_one hcount (List.mem_reverse.mpr (s.declared_perm.mem_iff.mp hmem))

/-- **The walks over a schema agree.** The names that symbols are found by, the names that modules are found by,
    and the names of the enums and the messages at every depth are the same. A name that is declared once stands
    for its declaration: a message, an enum, or a set of flags with the width in which it is stored. -/
theorem traversals_agree (s : Schema) :
    (∀ n, ((Symbols.ofSchema s).get? n).isSome = true ↔ n ∈ s.fullNames) ∧
    (∀ n, n ∈ (Generator.ofSchema s).modules.map Prod.fst ↔ n ∈ s.fullNames) ∧
    (∀ x ∈ s.messagesIn, s.fullNames.count (joinName x.1 x.2.name) = 1 →
      (Symbols.ofSchema s).get? (joinName x.1 x.2.name) = some .message) ∧
    ∀ x ∈ s.enumsIn, s.fullNames.count (joinName x.1 x.2.name) = 1 →
      (x.2.storage = none → (Symbols.ofSchema s).get? (joinName x.1 x.2.name) = some .enum) ∧
      ∀ width, x.2.storage = some width →
        (Symbols.ofSchema s).get? (joinName x.1 x.2.name) = some (.flags width) := by
  have hmodules : (Generator.ofSchema s).modules.map Prod.fst = (s.definitions.map Prod.fst).reverse := by
    rw [Generator.ofSchema, moduleTable_eq, List.map_reverse, List.map_map, definitions_eq, List.map_map]
    rfl
  refine ⟨fun n => ?_, fun n => ?_, fun x hx hone => ?_, fun x hx hone => ?_⟩
  · rw [Symbols.get?, isSome_lookup_iff, Symbols.ofSchema, List.map_reverse, List.mem_reverse,
      s.fullNames_perm.mem_iff]
  · rw [hmodules, List.mem_reverse, s.fullNames_perm.mem_iff]
  · exact get?_of_declared hone (List.mem_append_right _ (List.mem_map.mpr ⟨x, hx, rfl⟩))
  · have hget : (Symbols.ofSchema s).get? (joinName x.1 x.2.name) = some x.2.definition :=
      get?_of_declared hone (List.mem_append_left _ (List.mem_map.mpr ⟨x, hx, rfl⟩))
    rw [hget, EnumDef.definition]
    refine ⟨fun hstorage => ?_, fun width hstorage => ?_⟩
    · rw [hstorage]
    · rw [hstorage]

/-- A set of flags. -/
def wideFlags : EnumDef := { (default : EnumDef) with name := "Mode", storage := some .uint64 }

/-- A message with that set of flags. -/
def flagged : Message := { name := "N", enums := [wideFlags] }

/-- That message inside another one, which has the name of an enum. -/
def nestedFlags : Schema :=
  { package := some "p"
    messages := [{ name := "M", messages := [flagged] }]
    enums := [{ (default : EnumDef) with name := "M" }] }

/-- The set of flags and the message around it are found by their full names. The name that is declared twice is
    found as well. -/
theorem traversals_agree_nestedFlags :
    (Symbols.ofSchema nestedFlags).get? "p.M.N.Mode" = some (.flags .uint64) ∧
      (Symbols.ofSchema nestedFlags).get? "p.M.N" = some .message ∧
      "p.M" ∈ (Generator.ofSchema nestedFlags).modules.map Prod.fst :=
  ⟨((traversals_agree nestedFlags).2.2.2 ("p.M.N", wideFlags) (List.mem_cons_of_mem _ (List.mem_cons_self ..))
      (by decide +kernel)).2 .uint64 rfl,
    (traversals_agree nestedFlags).2.2.1 ("p.M", flagged) (List.mem_cons_of_mem _ (List.mem_cons_self ..))
      (by decide +kernel),
    ((traversals_agree nestedFlags).2.1 "p.M").mpr (by decide +kernel)⟩

end Schema

end FlagSchema
