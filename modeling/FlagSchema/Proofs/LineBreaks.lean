import FlagSchema.Proofs.Tiling

/-!
# Tokens between line breaks

What a token is does not depend on what stands next to it in a source: each is the same alone, and on a line of
its own. The spellings of the tokens of a source can be set apart by line breaks, also where they touched.

* **`SetApart`**: spellings stand in a text one behind another, with a line break between each two.
* **`Token.exists_words_of_setApart`**: words set apart are found again.
* **`tokenize_setApart`**: the spellings of tokens, set apart or alone, are tokens of the same kinds.
-/

namespace FlagSchema

/-- Spellings stand in a text one behind another, with blanks between each two that start with a line feed. -/
inductive SetApart : List (List Char) → List Char → Prop where
  | nil : SetApart [] []
  | single (spelling : List Char) : SetApart [spelling] spelling
  | cons {spelling next gap cs : List Char} {spellings : List (List Char)} (blank : gap.all Text.isBlank = true)
      (behind : SetApart (next :: spellings) cs) :
      SetApart (spelling :: next :: spellings) (spelling ++ '\n' :: gap ++ cs)

/-- The same blanks between each two. -/
theorem SetApart.intercalate {gap : List Char} (hgap : gap.all Text.isBlank = true) (spellings : List (List Char)) :
    SetApart spellings (('\n' :: gap).intercalate spellings) := by
  induction spellings with
  | nil => exact .nil
  | cons spelling spellings ih =>
      cases spellings with
      | nil => rw [List.intercalate_singleton]; exact .single spelling
      | cons next spellings =>
          rw [List.intercalate_cons_cons]
          exact .cons hgap ih

namespace Token

/-- Words that the scanner finds in front of something are found again with line breaks between them, behind any
    blanks. -/
theorem exists_words_of_setApart {w : Word} {ws : List Word} {cs : List Char} (blank : List Char)
    (hblank : blank.all Text.isBlank = true) (h : SetApart ((w :: ws).map Word.spelling) cs)
    (hleads : ∀ v ∈ w :: ws, ∃ rest, v.Leads rest) :
    ∃ vs, blank ++ cs = textOf vs ∧ Reads [] vs ∧ vs.map Word.kind = (w :: ws).map Word.kind := by
  induction ws generalizing w cs blank with
  | nil =>
      obtain ⟨rest, hw⟩ := hleads w (List.mem_cons_self ..)
      cases h with
      | single =>
          refine ⟨[{ w with blank }], ?_, ⟨hblank, hw.of_lineEnd atLineEnd_nil, reads_nil _⟩, rfl⟩
          rw [textOf_cons, textOf_nil, List.append_nil]
          rfl
  | cons v ws ih =>
      obtain ⟨⟨rest, hw⟩, hws⟩ := List.forall_mem_cons.mp hleads
      cases h with
      | @cons _ _ gap cs _ hgap behind =>
          have hbreak : ('\n' :: gap).all Text.isBlank = true := by rw [List.all_cons, hgap]; rfl
          obtain ⟨vs, htext, hreads, hkinds⟩ := ih ('\n' :: gap) hbreak behind hws
          refine ⟨{ w with blank } :: vs, ?_, ⟨hblank, ?_, hreads⟩, by rw [List.map_cons, hkinds]; rfl⟩
          · rw [textOf_cons, ← htext, Word.text]
            simp only [List.append_assoc]
          · rw [← htext, List.append_nil]
            exact hw.of_lineEnd (atLineEnd_cons _)

/-- The spelling of a word that the scanner finds in front of something is a token of its own. -/
theorem Word.Leads.tokenize_spelling {w : Word} {rest : List Char} (h : w.Leads rest) :
    tokenize (String.ofList w.spelling) = .ok [⟨w.kind, ⟨0, Text.byteSize w.spelling⟩, ⟨1, 1⟩⟩] := by
  have hscan := (h.of_lineEnd atLineEnd_nil).scan_spelling {}
  have hend : scan (({} : Place).after w.spelling) [] = .ok [] := scan_blanks _ rfl
  rw [List.append_nil, hend] at hscan
  rw [tokenize, String.toList_ofList, hscan]
  show Except.ok [Token.mk w.kind ⟨0, 0 + Text.byteSize w.spelling⟩ ⟨1, 1⟩] = _
  rw [Nat.zero_add]

end Token

open Token

/-- **Tokens do not depend on what stands between them.** Where the spellings of the tokens of a source are set
    apart by blanks that start with a line feed, the text has tokens of the same kinds, and each spelling alone is
    one token of its kind. -/
theorem tokenize_setApart {source : String} {ts : List Token} (h : tokenize source = .ok ts) :
    (∀ text : String, SetApart (ts.map fun t => Text.slice source.toList t.span) text.toList →
        ∃ us, tokenize text = .ok us ∧ us.map Token.kind = ts.map Token.kind) ∧
      ∀ t ∈ ts, ∃ spelling, Text.slice source.toList t.span = spelling ∧
        tokenize (String.ofList spelling) = .ok [⟨t.kind, ⟨0, Text.byteSize spelling⟩, ⟨1, 1⟩⟩] := by
  obtain ⟨ws, tail, hsource, htail, hreads, rfl⟩ := exists_words_of_scan h
  have hlies : Lies source.toList {} ws := lies_start hsource hreads
  have hleads : ∀ w ∈ ws, ∃ rest, w.Leads rest := by
    intro w hw
    obtain ⟨us, vs, rfl⟩ := List.append_of_mem hw
    exact ⟨_, (reads_append.mp hreads).2.2.1⟩
  refine ⟨fun text htext => ?_, fun t ht => ?_⟩
  · rw [hlies.slices_placed] at htext
    obtain ⟨vs, hvs, hreads', hkinds⟩ : ∃ vs, text.toList = textOf vs ∧ Reads [] vs ∧
        vs.map Word.kind = ws.map Word.kind := by
      generalize text.toList = cs at htext
      cases ws with
      | nil => cases htext with
        | nil => exact ⟨[], rfl, reads_nil _, rfl⟩
      | cons w ws => exact exists_words_of_setApart [] rfl htext hleads
    have hscan := scan_words {} hreads' rfl
    rw [List.append_nil, ← hvs] at hscan
    exact ⟨placed {} vs, hscan, by rw [map_kind_placed, map_kind_placed, hkinds]⟩
  · obtain ⟨us, w, vs, rfl, rfl⟩ := exists_of_mem_placed ht
    obtain ⟨rest, hw⟩ := hleads w (List.mem_append_right _ (List.mem_cons_self ..))
    exact ⟨w.spelling, hlies.slice_token, hw.tokenize_spelling⟩

/-- Tokens of every kind that touch each other, and comments up to the ends of their lines. -/
def touching : String :=
  ".a.b/**/.5e1f 0x1Fg'\\'//'1.e-2.c;// é \n" ++
  "/x/*\n" ++
  "*/\"\"=//"

/-- The spellings of its tokens. -/
def touchingSpellings : List String :=
  [".a.b", "/**/", ".5e1f", "0x1F", "g", "'\\'//'", "1.e-2", ".c", ";", "// é ", "/", "x", "/*\n*/", "\"\"",
    "=", "//"]

/-- Set apart, they are the same tokens, and each alone is one. -/
theorem tokenize_setApart_touching :
    ∃ ts us, tokenize touching = .ok ts ∧
      ts.map (fun t => String.ofList (Text.slice touching.toList t.span)) = touchingSpellings ∧
      tokenize ("\n \t".intercalate touchingSpellings) = .ok us ∧ us.map Token.kind = ts.map Token.kind ∧
      ∀ t ∈ ts, ∃ spelling, Text.slice touching.toList t.span = spelling ∧
        tokenize (String.ofList spelling) = .ok [⟨t.kind, ⟨0, Text.byteSize spelling⟩, ⟨1, 1⟩⟩] := by
  have hcomputed : (tokenize touching).toOption.map
      (fun ts => ts.map fun t => String.ofList (Text.slice touching.toList t.span)) = some touchingSpellings := by
    rw [tokenize]
    delta touching touchingSpellings
    simp only [String.toList_append, String.reduceToList]
    decide +kernel
  cases h : tokenize touching with
  | error e => rw [h] at hcomputed; cases hcomputed
  | ok ts =>
      rw [h] at hcomputed
      obtain ⟨hapart, halone⟩ := tokenize_setApart h
      have hspellings := Option.some.inj hcomputed
      have hslices : ts.map (fun t => Text.slice touching.toList t.span) = touchingSpellings.map String.toList := by
        rw [← hspellings, List.map_map]
        exact List.map_congr_left fun t _ => String.toList_ofList.symm
      have htext : SetApart (ts.map fun t => Text.slice touching.toList t.span)
          ("\n \t".intercalate touchingSpellings).toList := by
        rw [hslices, String.toList_intercalate]
        exact .intercalate (by decide) _
      obtain ⟨us, hus, hkinds⟩ := hapart _ htext
      exact ⟨ts, us, rfl, hspellings, hus, hkinds, halone⟩

end FlagSchema
