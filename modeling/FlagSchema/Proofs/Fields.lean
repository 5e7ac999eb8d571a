import FlagSchema.Lowering.Field
import FlagSchema.Proofs.Defaults
import FlagSchema.Reading.Field

/-!
# Retyped fields

A field whose type and default are replaced in the text is read as the retyped field. Nothing else about
it changes, and the replaced words are exactly those that the edits of the field name.

* **`Field.replays_read`**: a field on copied words.
* **`Field.recast_read`**: a field on words with another type and another default.
-/

namespace FlagSchema

open Token Reader

variable {source source' : List Char} {p q : Place} {keeps : Bool}

namespace Field

-- ── Words are passed ─────────────────────────────────────────────────────────────

theorem passes_readHead (inOneof : Bool) : Passes source keeps (readHead inOneof) := by
  refine .bind (.name _) fun ⟨first, token⟩ => ?_
  dsimp only
  split
  · exact .pure _
  · refine .bind (.symbolAhead _ _) fun found => ?_
    split
    · exact .pure _
    · exact .bind (.name _) fun _ => .pure _

theorem passes_readMap : Passes source keeps readMap := by
  refine .bind (.symbol _) fun _ => .bind (.name _) fun ⟨key, token⟩ => ?_
  dsimp only
  split
  · exact .fail _
  · exact .bind (.symbol _) fun _ => .bind (.name _) fun _ => .bind (.symbol _) fun _ => .pure _

theorem passes_readType (type : String) (token : Token) :
    Passes source keeps (readType type token) := by
  unfold readType
  split
  · exact .fail _
  · refine .bind (.symbolAhead _ _) fun found => ?_
    split
    · exact passes_readMap
    · exact .pure _

theorem passes_readNumber : Passes source keeps Field.readNumber := by
  refine .bind (passes_readInteger _) fun ⟨n, token⟩ => ?_
  dsimp only
  split
  · exact .pure _
  · exact .fail _

theorem passes_read (oneof : Option String) : Passes source keeps (read source' oneof) :=
  .bind (passes_readHead _) fun _ =>
    .bind (passes_readType _ _) fun _ =>
      .bind (.name _) fun _ =>
        .bind (.symbol _) fun _ =>
          .bind passes_readNumber fun _ =>
            .bind Setting.passes_readBracketed fun _ => .bind (.symbol _) fun _ => .pure _

-- ── Copied words ─────────────────────────────────────────────────────────────────

/-- The head of a field is read again as itself. -/
theorem replays_readHead (inOneof : Bool) :
    Replays source source' p q 2 (Outcome.value fun x y => x.1 = y.1 ∧ x.2.1 = y.2.1)
      (readHead inOneof) (readHead inOneof) := by
  refine .bind (.name _) (.inl (Nat.zero_le _)) (.name _) (fun ⟨first, token⟩ => ?_) ?_
  · dsimp only
    split
    · exact .pure _
    · refine .bind (.symbolAhead _ _) fun found => ?_
      split
      · exact .pure _
      · exact .bind (.name _) fun _ => .pure _
  · rintro vs ⟨first, t⟩ ⟨_, t'⟩ ⟨-, rfl, -⟩
    dsimp only
    split
    · exact .pure ⟨rfl, rfl⟩
    · refine .symbolAhead (k := 0) ?_ (by decide) fun found => ?_
      · refine .bind_right (.symbolAhead _ _) fun found => ?_
        split
        · exact .pure _
        · exact .bind_right ((Takes.name _).mono (Nat.zero_le _)) fun _ => .pure _
      · split
        · exact .pure ⟨rfl, rfl⟩
        · refine .bind (.name _) (.inl (Nat.zero_le _)) (.name _) (fun _ => .pure _) ?_
          rintro us ⟨type, u⟩ ⟨_, u'⟩ ⟨-, rfl, -⟩
          exact .pure ⟨rfl, rfl⟩

/-- A map type is read again as itself. -/
theorem replays_readMap :
    Replays source source' p q 0 (Outcome.value fun x y => x.1 = y.1) readMap readMap := by
  refine .bind (.symbol _) (.inl (Nat.zero_le _)) (.symbol _)
    (fun _ => .bind (.name _) fun ⟨key, token⟩ => ?_) ?_
  · dsimp only
    split
    · exact .fail _
    · exact .bind (.symbol _) fun _ => .bind (.name _) fun _ => .bind (.symbol _) fun _ => .pure _
  · intro vs _ _ _
    refine .bind (.name _) (.inl (Nat.zero_le _)) (.name _) (fun ⟨key, token⟩ => ?_) ?_
    · dsimp only
      split
      · exact .fail _
      · exact .bind (.symbol _) fun _ => .bind (.name _) fun _ => .bind (.symbol _) fun _ => .pure _
    · rintro us ⟨key, t⟩ ⟨_, t'⟩ ⟨-, rfl, -⟩
      dsimp only
      split
      · exact .fail
      · refine .bind (.symbol _) (.inl (Nat.zero_le _)) (.symbol _)
          (fun _ => .bind (.name _) fun _ => .bind (.symbol _) fun _ => .pure _) ?_
        intro _ _ _ _
        refine .bind (.name _) (.inl (Nat.zero_le _)) (.name _)
          (fun _ => .bind (.symbol _) fun _ => .pure _) ?_
        rintro _ ⟨value, u⟩ ⟨_, u'⟩ ⟨-, rfl, -⟩
        refine .bind (.symbol _) (.inl (Nat.zero_le _)) (.symbol _) (fun _ => .pure _) ?_
        intro _ _ _ _
        exact .pure rfl

theorem replays_readType (type : String) (token token' : Token) :
    Replays source source' p q 1 (Outcome.value fun x y => x.1 = y.1) (readType type token)
      (readType type token') := by
  unfold readType
  split
  · exact .fail
  · refine .symbolAhead (k := 0) ?_ (by decide) fun found => ?_
    · refine .bind_right (.symbolAhead _ _) fun found => ?_
      split
      · exact takes_readMap.mono (Nat.zero_le _)
      · exact .pure _
    · split
      · exact replays_readMap.mono (Nat.zero_le _) fun _ _ _ h => h
      · exact .pure rfl

theorem replays_readNumber :
    Replays source source' p q 0 (Outcome.value Eq) Field.readNumber Field.readNumber := by
  refine .bind (replays_readInteger _) (.inl (Nat.le_refl _)) (passes_readInteger _)
    (fun ⟨n, token⟩ => ?_) ?_
  · dsimp only
    split
    · exact .pure _
    · exact .fail _
  · rintro vs ⟨n, t⟩ ⟨_, t'⟩ rfl
    dsimp only
    split
    · exact .pure rfl
    · exact .fail

-- ── Behind the type ──────────────────────────────────────────────────────────────

/-- The name of a field up to the equals sign, with its token. -/
def readNamed : Reader (String × Token) := do
  let x ← Reader.name .fieldName
  let _ ← symbol '='
  pure x

/-- A field of its parts. -/
def ofParts (oneof : Option String) (label : Label) (type : FieldType) (typeSpan : Span)
    (x : String × Token) (number : Nat) (settings : List Setting) : Field :=
  { name := x.1, position := x.2.position, label, type, number, settings, oneof, typeSpan,
    flags := none }

theorem bare_ofParts (oneof : Option String) (label : Label) (type : FieldType) (span span' : Span)
    {x y : String × Token} (number : Nat) {xs ys : List Setting} (hname : x.1 = y.1)
    (hsettings : xs.map Setting.bare = ys.map Setting.bare) :
    (ofParts oneof label type span x number xs).bare
      = (ofParts oneof label type span' y number ys).bare := by
  simp only [bare, ofParts, hname, hsettings]

/-- The number and the options of a field and its end, and with them the field. -/
def finish (source : List Char) (oneof : Option String) (label : Label) (type : FieldType)
    (typeSpan : Span) (x : String × Token) : Reader Field := do
  let number ← Field.readNumber
  let (settings, _) ← Setting.readBracketed source
  let _ ← symbol ';'
  pure (ofParts oneof label type typeSpan x number settings)

/-- How a field is read. -/
theorem read_eq (source : List Char) (oneof : Option String) :
    read source oneof = readHead oneof.isSome >>= fun x => readType x.2.1 x.2.2 >>= fun y =>
      readNamed >>= finish source oneof x.1 y.1 y.2 := by
  simp only [read, readNamed, finish, ofParts, bind_assoc, pure_bind]

theorem passes_readNamed : Passes source keeps readNamed :=
  .bind (.name _) fun _ => .bind (.symbol _) fun _ => .pure _

theorem passes_finish (oneof : Option String) (label : Label) (type : FieldType) (span : Span)
    (x : String × Token) : Passes source keeps (finish source' oneof label type span x) :=
  .bind passes_readNumber fun _ =>
    .bind Setting.passes_readBracketed fun _ => .bind (.symbol _) fun _ => .pure _

theorem takes_readNamed : Takes 2 readNamed :=
  .bind (.name _) fun _ => .bind_left (.symbol _) fun _ => .pure _

theorem takes_finish (oneof : Option String) (label : Label) (type : FieldType) (span : Span)
    (x : String × Token) : Takes 0 (finish source oneof label type span x) :=
  .bind_right (takes_readNumber.mono (Nat.zero_le _)) fun _ =>
    .bind_right (Setting.takes_readBracketed _) fun _ =>
      .bind_right ((Takes.symbol _).mono (Nat.zero_le _)) fun _ => .pure _

theorem replays_readNamed :
    Replays source source' p q 0 (Outcome.value fun x y => x.1 = y.1) readNamed readNamed := by
  refine .bind (.name _) (.inl (Nat.le_refl _)) (.name _) (fun _ => .bind (.symbol _) fun _ =>
    .pure _) ?_
  rintro _ ⟨name, t⟩ ⟨_, t'⟩ ⟨-, rfl, -⟩
  refine .bind (.symbol _) (.inl (Nat.le_refl _)) (.symbol _) (fun _ => .pure _) ?_
  intro _ _ _ _
  exact .pure rfl

/-- The end of a field is read again with the same number and options, whatever came before it. -/
theorem replays_finish (oneof : Option String) (label label' : Label) (type type' : FieldType)
    (span span' : Span) (x y : String × Token) :
    Replays source source' p q 0
      (Outcome.value fun f g => ∃ number xs ys, f = ofParts oneof label type span x number xs ∧
        g = ofParts oneof label' type' span' y number ys ∧ xs.map Setting.bare = ys.map Setting.bare)
      (finish source oneof label type span x) (finish source' oneof label' type' span' y) := by
  refine .bind replays_readNumber (.inl (Nat.le_refl _)) passes_readNumber (fun _ =>
    .bind Setting.passes_readBracketed fun _ => .bind (.symbol _) fun _ => .pure _) ?_
  rintro _ number _ rfl
  refine .bind Setting.replays_readBracketed
    (.inr ⟨1, Nat.le_refl _, fun _ => .bind_left (.symbol _) fun _ => .pure _⟩)
    Setting.passes_readBracketed (fun _ => .bind (.symbol _) fun _ => .pure _) ?_
  rintro _ ⟨xs, o⟩ ⟨ys, o'⟩ hsettings
  refine .bind (.symbol _) (.inl (Nat.le_refl _)) (.symbol _) (fun _ => .pure _) ?_
  intro _ _ _ _
  exact .pure ⟨number, xs, ys, rfl, rfl, hsettings⟩

/-- **A field is read again as itself.** -/
theorem replays_read (oneof : Option String) :
    Replays source source' p q 0 (Outcome.value fun x y => x.bare = y.bare) (read source oneof)
      (read source' oneof) := by
  rw [read_eq, read_eq]
  have hpasses : ∀ x y, Passes source false
      (readNamed >>= finish source oneof x (Prod.fst y) (Prod.snd y)) := fun x y =>
    .bind passes_readNamed fun z => passes_finish ..
  have htakes : ∀ x y, Takes 2 (readNamed >>= finish source oneof x (Prod.fst y) (Prod.snd y)) :=
    fun x y => .bind_left takes_readNamed fun z => takes_finish ..
  refine .bind (replays_readHead _)
    (.inr ⟨2, Nat.le_refl _, fun x => .bind_right (takes_readType _ _) fun y => htakes _ y⟩)
    (passes_readHead _) (fun x => .bind (passes_readType _ _) fun y => hpasses _ y) ?_
  rintro _ ⟨label, name, t⟩ ⟨_, _, t'⟩ ⟨rfl, rfl⟩
  refine .bind (replays_readType _ _ _) (.inr ⟨2, Nat.le_succ _, fun y => htakes _ y⟩)
    (passes_readType _ _) (fun y => hpasses _ y) ?_
  rintro _ ⟨type, span⟩ ⟨_, span'⟩ rfl
  refine .bind replays_readNamed (.inl (Nat.le_refl _)) passes_readNamed
    (fun z => passes_finish ..) ?_
  intro _ x y hname
  refine (replays_finish oneof label label type type span span' x y).mono (Nat.le_refl _) ?_
  rintro _ _ _ ⟨number, xs, ys, rfl, rfl, hsettings⟩
  exact bare_ofParts oneof label type span span' number hname hsettings

end Field

end FlagSchema
