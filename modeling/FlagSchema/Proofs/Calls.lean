import FlagSchema.Proofs.EnumDefaults
import FlagSchema.Proofs.Sessions

/-!
# Calls and methods

A method of a structure that takes the receiver for changing changes one field of it, in one of a few ways. Harts and
their privilege configurations are the structures that are declared for the example schema: each call on them is such
a method, and each such method is a call.

* **`Code.change?`**: the field that the body of a method changes, and how.
* **`Declaration.exists_changer`**: every method that changes the receiver changes a field of the structure.
* **`Privileged.members`**, **`Hart.members`**: the fields of both structures.
* **`Privileged.mem_changers_iff`**, **`Hart.mem_changers_iff`**: the calls are the methods that change them.
* **`Xlen.ofNumber?_variants`**: a number is read as a width as it is among the variants of the enum.
* **`declarations_example`**: the declarations for the example schema.
-/

namespace FlagSchema

open Declaration

-- ── Changes ──────────────────────────────────────────────────────────────────────

/-- How a method changes a field. -/
inductive FieldChange where
  /-- The field becomes the value that is passed. -/
  | set
  /-- The field becomes empty. -/
  | clear
  /-- The value that is passed is put at the end. -/
  | add
  /-- The field is handed out. -/
  | lend
  /-- The field is handed out, made anew if there is nothing in it. -/
  | lendNew
  deriving DecidableEq, Repr

/-- A method takes the receiver for changing. -/
def Method.changesReceiver (x : Method) : Bool :=
  match x.parameters with
  | .word "&" :: .word "mut" :: .word "self" :: _ => true
  | _                                             => false

/-- The field that the body of a method changes, and how. -/
def Code.change? : Code → Option (String × FieldChange)
  | .word "&" :: .word "mut" :: .word "self" :: .word "." :: [.word field] => some (field, .lend)
  | .word "self" :: .word "." :: .word field :: change =>
    match change with
    | [.word "=", .word "v", .word ";"]                                              => some (field, .set)
    | [.word "=", .word "v", .word "as", .word "i32", .word ";"]                     => some (field, .set)
    | [.word "=", .word "v", .word ".", .word "bits", .group .parens [], .word ";"]  => some (field, .set)
    | [.word "=", .word "v", .word ".", .word "into", .group .parens [], .word ";"]  => some (field, .set)
    | [.word "=", .word "Some", .group .parens
        [.word "Box", .word "::", .word "new", .group .parens [.word "v"]], .word ";"] => some (field, .set)
    | [.word "=", .word "0", .word ";"]                                              => some (field, .clear)
    | [.word "=", .word "None", .word ";"]                                           => some (field, .clear)
    | [.word "=", .word "Default", .word "::", .word "default", .group .parens [], .word ";"] =>
      some (field, .clear)
    | [.word ".", .word "clear", .group .parens [], .word ";"]                       => some (field, .clear)
    | [.word ".", .word "push", .group .parens _, .word ";"]                         => some (field, .add)
    | [.word ".", .word "get_or_insert_with", .group .parens [.word "Box", .word "::", .word "default"]] =>
      some (field, .lendNew)
    | _ => none
  | _ => none

namespace Member

variable {m : Member} {x : Method}

theorem exists_change_of_single (h : x ∈ m.singleMethods) (hchanges : x.changesReceiver = true) :
    ∃ change, Code.change? x.body = some (m.ident.render, change) := by
  unfold singleMethods at h
  split at h <;> simp only [textMethods, List.mem_cons, List.not_mem_nil, or_false] at h
  case h_1 | h_2 =>
    rcases h with rfl | rfl | rfl | rfl
    · cases hchanges
    · exact ⟨.set, rfl⟩
    · exact ⟨.lend, rfl⟩
    · exact ⟨.clear, rfl⟩
  case h_3 | h_4 | h_5 =>
    rcases h with rfl | rfl | rfl
    · cases hchanges
    · exact ⟨.set, rfl⟩
    · exact ⟨.clear, rfl⟩
  case h_6 =>
    rcases h with rfl | rfl | rfl | rfl | rfl
    · cases hchanges
    · cases hchanges
    · exact ⟨.set, rfl⟩
    · exact ⟨.lendNew, rfl⟩
    · exact ⟨.clear, rfl⟩

theorem exists_change_of_repeated (h : x ∈ m.repeatedMethods) (hchanges : x.changesReceiver = true) :
    ∃ change, Code.change? x.body = some (m.ident.render, change) := by
  simp only [repeatedMethods, List.mem_cons, List.not_mem_nil, or_false] at h
  rcases h with rfl | rfl | rfl | rfl | rfl
  · cases hchanges
  · cases hchanges
  · exact ⟨.add, rfl⟩
  · exact ⟨.lend, rfl⟩
  · exact ⟨.clear, rfl⟩

/-- Every method for a field that changes the receiver changes that field. -/
theorem exists_change (h : x ∈ m.methods) (hchanges : x.changesReceiver = true) :
    ∃ change, Code.change? x.body = some (m.ident.render, change) := by
  unfold methods at h
  split at h
  · exact exists_change_of_repeated h hchanges
  · exact exists_change_of_single h hchanges

end Member

/-- A method that changes a field: its name, the name of the field, and how it changes. -/
structure Changer where
  name   : String
  field  : String
  change : FieldChange
  deriving DecidableEq, Repr

/-- What a method changes, if it changes the receiver. -/
def Method.changer? (x : Method) : Option Changer :=
  if x.changesReceiver then
    (Code.change? x.body).map fun (field, change) => { name := x.ident.render, field, change }
  else none

namespace Declaration

variable {members : List Member} {x : Method}

/-- The methods of a structure that change it. -/
def changers (members : List Member) : List Changer := (structMethods members).filterMap Method.changer?

/-- **Every method of a structure that changes the receiver changes one of the fields**, and is among the methods
    that do. -/
theorem exists_changer (h : x ∈ structMethods members) (hchanges : x.changesReceiver = true) :
    ∃ m ∈ members, ∃ change, ⟨x.ident.render, m.ident.render, change⟩ ∈ changers members := by
  rcases List.mem_cons.mp h with rfl | hmethod
  · cases hchanges
  · obtain ⟨m, hm, hmethod⟩ := List.mem_flatMap.mp hmethod
    obtain ⟨change, hchange⟩ := m.exists_change hmethod hchanges
    refine ⟨m, hm, change, List.mem_filterMap.mpr ⟨x, h, ?_⟩⟩
    rw [Method.changer?, if_pos hchanges, hchange]
    rfl

end Declaration

-- ── Privilege configurations ─────────────────────────────────────────────────────

/-- A type of flags as it is declared under a name. -/
def FlagType.declaration (name : String) (t : FlagType) : Declaration :=
  .flags { text := name } t.width (t.flags.map fun f => ({ text := f.name }, f.value.toNat))
    (t.flags.map fun f => (f.name, f.value.toNat))

/-- The way from the module of the example to the modes. -/
def modePath : TypePath :=
  { ups := 1, modules := [{ text := "riscv" }, { text := "privileged" }], name := { text := "Mode" } }

namespace Privileged

/-- The fields of a privilege configuration. -/
def members : List Member := [
  { ident := { text := "modes" }, isRepeated := false, holding := .flags modePath modeType.width },
  { ident := { text := "mxlen" }, isRepeated := false, holding := .scalar .uint32 },
  { ident := { text := "isa" }, isRepeated := false, holding := .scalar .string }]

/-- The method that a call is a call of. -/
def Call.changer : Call → Changer
  | .setModes _ => ⟨"set_modes", "modes", .set⟩
  | .clearModes => ⟨"clear_modes", "modes", .clear⟩
  | .setMxlen _ => ⟨"set_mxlen", "mxlen", .set⟩
  | .clearMxlen => ⟨"clear_mxlen", "mxlen", .clear⟩
  | .setIsa _   => ⟨"set_isa", "isa", .set⟩
  | .editIsa _  => ⟨"mutable_isa", "isa", .lend⟩
  | .clearIsa   => ⟨"clear_isa", "isa", .clear⟩

theorem changers_members : changers members = [
    ⟨"set_modes", "modes", .set⟩, ⟨"clear_modes", "modes", .clear⟩,
    ⟨"set_mxlen", "mxlen", .set⟩, ⟨"clear_mxlen", "mxlen", .clear⟩,
    ⟨"set_isa", "isa", .set⟩, ⟨"mutable_isa", "isa", .lend⟩, ⟨"clear_isa", "isa", .clear⟩] := by
  decide +kernel

/-- **The calls on a privilege configuration are its methods that change it.** -/
theorem mem_changers_iff {x : Changer} : x ∈ changers members ↔ ∃ call : Call, call.changer = x := by
  simp only [changers_members, List.mem_cons, List.not_mem_nil, or_false]
  constructor
  · rintro (rfl | rfl | rfl | rfl | rfl | rfl | rfl)
    · exact ⟨.setModes 0, rfl⟩
    · exact ⟨.clearModes, rfl⟩
    · exact ⟨.setMxlen 0, rfl⟩
    · exact ⟨.clearMxlen, rfl⟩
    · exact ⟨.setIsa "", rfl⟩
    · exact ⟨.editIsa id, rfl⟩
    · exact ⟨.clearIsa, rfl⟩
  · rintro ⟨call, rfl⟩
    cases call <;> simp [Call.changer]

end Privileged

-- ── Register widths ──────────────────────────────────────────────────────────────

namespace Xlen

/-- The variant for a width. -/
def variant (x : Xlen) : Variant := { ident := { text := x.name }, number := x.number }

/-- **A number is the width whose variant it is read as.** -/
theorem ofNumber?_variants (n : Int) : Variant.ofNumber? (all.map variant) n = (ofNumber? n).map variant :=
  List.find?_map ..

/-- The number that is stored for a width is read as its variant. -/
theorem readFrom_number (x : Xlen) :
    Variant.readFrom unspecified.variant [x32.variant, x64.variant] x.number = x.variant := by
  have hread : Variant.ofNumber? (all.map variant) x.number = some x.variant := by
    rw [ofNumber?_variants, ofNumber?_number, Option.map_some]
  exact (congrArg (·.getD unspecified.variant) hread).trans (Option.getD_some ..)

end Xlen

-- ── Harts ────────────────────────────────────────────────────────────────────────

namespace Hart

/-- The field of the structure that holds a field of a hart. -/
def FieldName.member : FieldName → Member
  | .hartId     => { ident := { text := "hart_id" }, isRepeated := false, holding := .scalar .uint64 }
  | .xlen       =>
    { ident := { text := "xlen" }, isRepeated := false,
      holding := .enum { ups := 1, modules := [{ text := "riscv" }], name := { text := "Xlen" } } }
  | .privileged =>
    { ident := { text := "privileged" }, isRepeated := false,
      holding := .message { ups := 1, modules := [{ text := "riscv" }], name := { text := "Privileged" } } }
  | .delegated  =>
    { ident := { text := "delegated" }, isRepeated := true, holding := .flags modePath modeType.width }
  | .extensions => { ident := { text := "extensions" }, isRepeated := true, holding := .scalar .string }

/-- The fields of a hart. -/
def members : List Member := [.hartId, .xlen, .privileged, .delegated, .extensions].map FieldName.member

/-- The method that a call is a call of. -/
def Call.changer : Call → Changer
  | .setHartId _      => ⟨"set_hart_id", "hart_id", .set⟩
  | .clearHartId      => ⟨"clear_hart_id", "hart_id", .clear⟩
  | .setXlen _        => ⟨"set_xlen", "xlen", .set⟩
  | .clearXlen        => ⟨"clear_xlen", "xlen", .clear⟩
  | .setPrivileged _  => ⟨"set_privileged", "privileged", .set⟩
  | .editPrivileged _ => ⟨"mutable_privileged", "privileged", .lendNew⟩
  | .clearPrivileged  => ⟨"clear_privileged", "privileged", .clear⟩
  | .addDelegated _   => ⟨"add_delegated", "delegated", .add⟩
  | .editDelegated _  => ⟨"mutable_delegated", "delegated", .lend⟩
  | .clearDelegated   => ⟨"clear_delegated", "delegated", .clear⟩
  | .addExtension _   => ⟨"add_extensions", "extensions", .add⟩
  | .editExtensions _ => ⟨"mutable_extensions", "extensions", .lend⟩
  | .clearExtensions  => ⟨"clear_extensions", "extensions", .clear⟩

theorem changers_members : changers members = [
    ⟨"set_hart_id", "hart_id", .set⟩, ⟨"clear_hart_id", "hart_id", .clear⟩,
    ⟨"set_xlen", "xlen", .set⟩, ⟨"clear_xlen", "xlen", .clear⟩,
    ⟨"set_privileged", "privileged", .set⟩, ⟨"mutable_privileged", "privileged", .lendNew⟩,
    ⟨"clear_privileged", "privileged", .clear⟩,
    ⟨"add_delegated", "delegated", .add⟩, ⟨"mutable_delegated", "delegated", .lend⟩,
    ⟨"clear_delegated", "delegated", .clear⟩,
    ⟨"add_extensions", "extensions", .add⟩, ⟨"mutable_extensions", "extensions", .lend⟩,
    ⟨"clear_extensions", "extensions", .clear⟩] := by
  decide +kernel

/-- **The calls on a hart are its methods that change it.** -/
theorem mem_changers_iff {x : Changer} : x ∈ changers members ↔ ∃ call : Call, call.changer = x := by
  simp only [changers_members, List.mem_cons, List.not_mem_nil, or_false]
  constructor
  · rintro (rfl | rfl | rfl | rfl | rfl | rfl | rfl | rfl | rfl | rfl | rfl | rfl | rfl)
    · exact ⟨.setHartId 0, rfl⟩
    · exact ⟨.clearHartId, rfl⟩
    · exact ⟨.setXlen .x32, rfl⟩
    · exact ⟨.clearXlen, rfl⟩
    · exact ⟨.setPrivileged {}, rfl⟩
    · exact ⟨.editPrivileged [], rfl⟩
    · exact ⟨.clearPrivileged, rfl⟩
    · exact ⟨.addDelegated 0, rfl⟩
    · exact ⟨.editDelegated id, rfl⟩
    · exact ⟨.clearDelegated, rfl⟩
    · exact ⟨.addExtension "", rfl⟩
    · exact ⟨.editExtensions id, rfl⟩
    · exact ⟨.clearExtensions, rfl⟩
  · rintro ⟨call, rfl⟩
    cases call <;> simp [Call.changer]

/-- The field that a call names is the one that its method changes. -/
theorem Call.changer_field (call : Call) : call.changer.field = call.field.member.ident.render := by
  cases call <;> rfl

/-- A call of a method that clears a field leaves it as it is in a new hart. -/
theorem get_apply_of_clear (h : Hart) {call : Call} (hclear : call.changer.change = .clear) :
    (h.apply call).get call.field = get {} call.field := by
  cases call <;> first | rfl | cases hclear

end Hart

-- ── The example schema ───────────────────────────────────────────────────────────

/-- The example schema. -/
def exampleSchema : String :=
  "syntax = \"proto3\";\n\npackage riscv;\n\n" ++
  "// Privilege configuration of a RISC-V hart.\n" ++
  "message Privileged \x7b\n" ++
  "  // Privilege modes implemented by the hart.\n" ++
  "  enum Mode \x7b\n" ++
  "    option (bitmap) = true;\n" ++
  "    // Machine mode\n    M = 0;\n" ++
  "    // Supervisor mode\n    S = 1;\n" ++
  "    // User mode\n    U = 2;\n" ++
  "  \x7d\n\n" ++
  "  Mode modes = 1;\n" ++
  "  uint32 mxlen = 2;\n" ++
  "  string isa = 3;\n" ++
  "\x7d\n\n" ++
  "enum Xlen \x7b\n" ++
  "  XLEN_UNSPECIFIED = 0;\n" ++
  "  XLEN_32 = 1;\n" ++
  "  XLEN_64 = 2;\n" ++
  "\x7d\n\n" ++
  "message Hart \x7b\n" ++
  "  uint64 hart_id = 1;\n" ++
  "  Xlen xlen = 2;\n" ++
  "  Privileged privileged = 3;\n" ++
  "  // Modes whose traps are delegated to supervisor.\n" ++
  "  repeated Privileged.Mode delegated = 4;\n" ++
  "  repeated string extensions = 5;\n" ++
  "\x7d\n"

/-- The declarations for the example schema. -/
def exampleDeclarations : List Declaration := [
  .module { text := "riscv" } [
    .enum { text := "Xlen" } Xlen.unspecified.variant [Xlen.x32.variant, Xlen.x64.variant],
    .struct { text := "Privileged" } Privileged.members,
    .module { text := "privileged" } [modeType.declaration "Mode"],
    .struct { text := "Hart" } Hart.members]]

/-- **Harts, privilege configurations, widths and modes are what is declared for the example schema.** -/
theorem declarations_example :
    ∃ low, (lower exampleSchema).result = .ok low ∧ low.schema.declarations.result = .ok exampleDeclarations := by
  refine lower_of_sameAll ?_
  rw [lower_eq]
  delta exampleSchema
  simp only [String.toList_append, String.reduceToList]
  decide +kernel

end FlagSchema
