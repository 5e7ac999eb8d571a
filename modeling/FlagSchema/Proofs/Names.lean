import FlagSchema.Proofs.Paths
import FlagSchema.Proofs.Spelling

/-!
# Names in a source

The enums, values and fields of a schema are named by names of the source. Such a name has no dot if it has an
identifier, and then it is plain: it can stand in a string as it is.

* **`EnumDef.yields_spelled`**, **`Field.yields_name`**: the names of an enum, its values and a field.
* **`Schema.spelled_parse`**: the values of all enums of a schema are spelled in its source.
* **`EnumValue.Spelled.isPlainName`**: the name of a value that has an identifier is a plain name.
-/

namespace FlagSchema

open Token Reader

variable {source : List Char}

/-- A name in the source that has no dot is a plain name. -/
theorem Token.Word.Leads.isPlainName {w : Word} {rest : List Char} {name : String} (h : w.Leads rest)
    (hkind : w.kind = .ident name) (hdot : '.' ∉ name.toList) : isPlainName name.toList = true := by
  obtain ⟨⟨c, cs, hcs, hstart⟩, hname, hcut⟩ := h.name_form hkind
  have hchars : ∀ d ∈ name.toList, isNameChar d = true := by
    intro d hd
    have hfront := nameChars_of_cutName (w.spelling ++ rest) d
    rw [hcut, ← hname] at hfront
    exact (hfront hd).resolve_right fun heq => hdot (heq ▸ hd)
  rw [hname.trans hcs] at hchars hdot ⊢
  rcases hstart with hstart | ⟨rfl, -⟩
  · rw [Token.isPlainName, hstart, Bool.true_and, List.all_eq_true]
    exact (List.forall_mem_cons.mp hchars).2
  · exact absurd (List.mem_cons_self ..) hdot

/-- An enum that is read has a name that the scanner finds, and values that are spelled in the source. -/
theorem EnumDef.yields_spelled (keyword : Token) :
    Yields source (EnumDef.read source keyword) fun e =>
      IsScanned e.name ∧ ∀ v ∈ e.values, v.Spelled source := by
  have hhead : Yields source readHead fun x => IsScanned x.1 :=
    (Yields.name _).bind fun _ hname => .behind (.symbol _) fun _ => .pure hname
  rw [read_eq]
  refine hhead.bind fun x hname => ?_
  intro s p ws e s' hs h
  obtain ⟨⟨b, closing, dangling⟩, s₁, h1, h2⟩ := exists_of_bind h
  cases h2
  obtain ⟨vs, w, ws', -, -, -, hs', hsound, -⟩ := readBody_inv hs h1
  exact ⟨⟨hname, hsound.values⟩, _, ws', hs'⟩

/-- A field that is read has a name that the scanner finds. -/
theorem Field.yields_name (oneof : Option String) :
    Yields source (Field.read source oneof) fun f => IsScanned f.name :=
  .behind (passes_readHead _) fun _ => .behind (passes_readType _ _) fun _ => (Yields.name _).bind fun _ hname =>
    .behind (.symbol _) fun _ => .behind passes_readNumber fun _ => .behind Setting.passes_readBracketed fun _ =>
    .behind (.symbol _) fun _ => .pure hname

/-- The values of all enums of a schema are spelled in its source. -/
theorem Schema.spelled_parse {source : String} {s : Schema} (h : parse source = .ok s) :
    ∀ x ∈ s.enumsIn, ∀ v ∈ x.2.values, v.Spelled source.toList :=
  fun x hx => ((declares_parse h .name EnumDef.yields_spelled Field.yields_name).of_enumsIn x hx).2

/-- **The name of a value that has an identifier is a plain name.** -/
theorem EnumValue.Spelled.isPlainName {v : EnumValue} {i : Ident} (h : v.Spelled source)
    (hident : Ident.ofName? v.name = some i) : isPlainName v.name.toList = true := by
  obtain ⟨w, rest, hleads, hkind⟩ := h.name
  exact hleads.isPlainName hkind (Ident.dot_notMem_of_ofName? hident)

end FlagSchema
