import FlagSchema.Proofs.Settings
import FlagSchema.Reading.Enum

/-!
# Enums on copied words

The readers of enums do the same wherever the words they read stand, places and comments apart.

* **`EnumValue.replays_read`**, **`EnumDef.replays_read`**: a value, an enum.
* **`EnumDef.bodyStep_inl`**, **`EnumDef.bodyStep_inr`**: the words that a step of the body takes, and the
  comments that it holds or collects.
-/

namespace FlagSchema

open Token Reader

variable {source source' : List Char} {p q : Place} {keeps : Bool}

-- ── Values ───────────────────────────────────────────────────────────────────────

namespace EnumValue

/-- The number of a value up to its semicolon: its sign, its digits, its options with their place, and
    the semicolon. -/
def readNumbered (source : List Char) : Reader (Bool × Nat × (List Setting × Option Span) × Token) := do
  let _ ← symbol '='
  let negative ← acceptSymbol '-'
  let (number, _) ← readInteger .enumValueNumber
  let bracketed ← Setting.readBracketed source
  let semicolon ← symbol ';'
  pure (negative, number, bracketed, semicolon)

/-- A value of its name, the comments in front of it and its number. -/
def ofParts (x : String × Token) (leading : List String)
    (y : Bool × Nat × (List Setting × Option Span) × Token) (trailing : Option String) : EnumValue :=
  { name := x.1, position := x.2.position, span := x.2.span,
    number := if y.1 then -(y.2.1 : Int) else y.2.1,
    settings := y.2.2.1.1, settingsSpan := y.2.2.1.2, leading, trailing }

/-- How a value is read. -/
theorem read_eq (source : List Char) :
    read source = Reader.name .enumValue >>= fun x => takeHeld >>= fun leading =>
      readNumbered source >>= fun y => Reader.trailing y.2.2.2.position.line >>= fun trailing =>
        pure (ofParts x leading y trailing) := by
  simp only [read, readNumbered, ofParts, bind_assoc, pure_bind]

theorem passes_readNumbered : Passes source keeps (readNumbered source') :=
  .bind (.symbol _) fun _ =>
    .bind (.acceptSymbol _) fun _ =>
      .bind (passes_readInteger _) fun _ =>
        .bind Setting.passes_readBracketed fun _ => .bind (.symbol _) fun _ => .pure _

theorem passes_read : Passes source false (read source') := by
  rw [read_eq]
  exact .bind (.name _) fun _ => .bind .takeHeld fun _ =>
    .bind passes_readNumbered fun _ => .bind (.trailing _) fun _ => .pure _

/-- The number of a value is read again as itself, with its options. -/
theorem replays_readNumbered :
    Replays source source' p q 0
      (Outcome.value fun x y => x.1 = y.1 ∧ x.2.1 = y.2.1 ∧
        x.2.2.1.1.map Setting.bare = y.2.2.1.1.map Setting.bare)
      (readNumbered source) (readNumbered source') := by
  refine .bind (.symbol _) (.inl (Nat.le_refl _)) (.symbol _) (fun _ =>
    .bind (.acceptSymbol _) fun _ => .bind (passes_readInteger _) fun _ =>
      .bind Setting.passes_readBracketed fun _ => .bind (.symbol _) fun _ => .pure _) ?_
  intro _ _ _ _
  refine .bind (.acceptSymbol _) (.inr ⟨1, Nat.le_refl _, fun _ => ?_⟩) (.acceptSymbol _) (fun _ =>
    .bind (passes_readInteger _) fun _ => .bind Setting.passes_readBracketed fun _ =>
      .bind (.symbol _) fun _ => .pure _) ?_
  · exact .bind_left (takes_readInteger _) fun _ => .bind_right (Setting.takes_readBracketed _)
      fun _ => .bind_right ((Takes.symbol _).mono (Nat.zero_le _)) fun _ => .pure _
  rintro _ negative _ rfl
  refine .bind (replays_readInteger _) (.inl (Nat.le_refl _)) (passes_readInteger _) (fun _ =>
    .bind Setting.passes_readBracketed fun _ => .bind (.symbol _) fun _ => .pure _) ?_
  rintro _ ⟨number, t⟩ ⟨_, t'⟩ rfl
  refine .bind Setting.replays_readBracketed
    (.inr ⟨1, Nat.le_refl _, fun _ => .bind_left (.symbol _) fun _ => .pure _⟩)
    Setting.passes_readBracketed (fun _ => .bind (.symbol _) fun _ => .pure _) ?_
  intro _ x y hxy
  refine .bind (.symbol _) (.inl (Nat.le_refl _)) (.symbol _) (fun _ => .pure _) ?_
  intro _ _ _ _
  exact .pure ⟨rfl, rfl, hxy⟩

/-- **A value is read again as itself.** -/
theorem replays_read :
    Replays source source' p q 0 (Outcome.value fun x y => x.bare = y.bare) (read source)
      (read source') := by
  rw [read_eq, read_eq]
  refine .bind (.name _) (.inl (Nat.le_refl _)) (.name _) (fun _ => .bind .takeHeld fun _ =>
    .bind passes_readNumbered fun _ => .bind (.trailing _) fun _ => .pure _) ?_
  rintro _ ⟨name, t⟩ ⟨_, t'⟩ ⟨-, rfl, -⟩
  refine .bind .takeHeld (.inl (Nat.le_refl _)) .takeHeld (fun _ =>
    .bind passes_readNumbered fun _ => .bind (.trailing _) fun _ => .pure _) ?_
  intro _ leading leading' _
  refine .bind replays_readNumbered (.inl (Nat.le_refl _)) passes_readNumbered
    (fun _ => .bind (.trailing _) fun _ => .pure _) ?_
  rintro _ ⟨negative, number, x, u⟩ ⟨_, _, y, u'⟩ ⟨rfl, rfl, hxy⟩
  refine .bind (.trailing _ _) (.inl (Nat.le_refl _)) (.trailing _) (fun _ => .pure _) ?_
  intro _ trailing trailing' _
  refine .pure ?_
  show EnumValue.bare _ = EnumValue.bare _
  simp only [bare, ofParts, show x.1.map Setting.bare = y.1.map Setting.bare from hxy]

theorem takes_read_two (source : List Char) : Takes 2 (read source) :=
  .bind (.name _) fun _ =>
    .bind_right .takeHeld fun _ =>
      .bind_left (.symbol _) fun _ =>
        .bind_right (.acceptSymbol _) fun _ =>
          .bind_right ((takes_readInteger _).mono (Nat.zero_le _)) fun _ =>
            .bind_right (Setting.takes_readBracketed _) fun _ =>
              .bind_right ((Takes.symbol _).mono (Nat.zero_le _)) fun _ =>
                .bind_right (.trailing _) fun _ => .pure _

end EnumValue

theorem Setting.takes_readStatement_two (source : List Char) : Takes 2 (readStatement source) :=
  .bind (.next _) fun _ =>
    .bind_left takes_readOptionName fun _ =>
      .bind_right ((Takes.symbol _).mono (Nat.zero_le _)) fun _ =>
        .bind_right ((takes_readConstant _).mono (Nat.zero_le _)) fun _ =>
          .bind_right ((Takes.symbol _).mono (Nat.zero_le _)) fun _ =>
            .bind_right (.trailing _) fun _ => .pure _

-- ── Bodies ───────────────────────────────────────────────────────────────────────

namespace EnumDef

/-- Two bodies that hold the same. -/
def Body.Same (b c : Body) : Prop :=
  b.settings.map Setting.bare = c.settings.map Setting.bare ∧
    b.values.map EnumValue.bare = c.values.map EnumValue.bare

theorem Body.Same.pushSetting {b c : Body} (h : b.Same c) {x y : Setting} (hxy : x.bare = y.bare) :
    Body.Same { b with settings := b.settings ++ [x] } { c with settings := c.settings ++ [y] } := by
  refine ⟨?_, h.2⟩
  rw [List.map_append, List.map_append, h.1, List.map_singleton, List.map_singleton, hxy]

theorem Body.Same.pushValue {b c : Body} (h : b.Same c) {x y : EnumValue} (hxy : x.bare = y.bare) :
    Body.Same { b with values := b.values ++ [x] } { c with values := c.values ++ [y] } := by
  refine ⟨h.1, ?_⟩
  rw [List.map_append, List.map_append, h.2, List.map_singleton, List.map_singleton, hxy]

theorem passes_bodyStep (body : Body) : Passes source false (bodyStep source' body) := by
  refine .bind .peek? fun kind => ?_
  split
  · exact .refuse _
  · split
    · exact .bind (.next _) fun _ => .pure _
    · split
      · exact .bind (.next _) fun _ => .pure _
      · exact .refuse _
  · refine .bind (.symbolAhead _ _) fun isValue => ?_
    split
    · exact .bind Setting.passes_readStatement fun _ => .pure _
    · split
      · exact .bind (.next _) fun _ => .bind (passes_skipPast _) fun _ => .pure _
      · exact .bind EnumValue.passes_read fun _ => .pure _
  · exact .refuse _

/-- A step of the body is made again as itself. -/
theorem replays_bodyStep {b c : Body} (h : b.Same c) :
    Replays source source' p q 0
      (Outcome.step (Outcome.value Body.Same) (Outcome.value fun x y => x.1.Same y.1))
      (bodyStep source b) (bodyStep source' c) := by
  refine .peek? (takes_bodyStep source b) fun kind => ?_
  split
  · exact .refuse
  · split
    · refine .bind (.next _) (.inl (Nat.le_refl _)) (.next _) (fun _ => .pure _) ?_
      intro _ _ _ _
      exact .pure (.inr ⟨_, _, rfl, rfl, h⟩)
    · split
      · refine .bind (.next _) (.inl (Nat.le_refl _)) (.next _) (fun _ => .pure _) ?_
        intro _ _ _ _
        exact .pure (.inl ⟨_, _, rfl, rfl, h⟩)
      · exact .refuse
  · refine .symbolAhead (k := 2) ?_ (by decide) fun isValue => ?_
    · refine .bind_right (.symbolAhead _ _) fun isValue => ?_
      split
      · exact .bind_left (Setting.takes_readStatement_two _) fun _ => .pure _
      · split
        · exact .bind (.next _) fun _ => .bind_left (takes_skipPast _) fun _ => .pure _
        · exact .bind_left (EnumValue.takes_read_two _) fun _ => .pure _
    · split
      · refine .bind Setting.replays_readStatement (.inl (Nat.le_refl _)) Setting.passes_readStatement
          (fun _ => .pure _) ?_
        intro _ x y hxy
        exact .pure (.inl ⟨_, _, rfl, rfl, h.pushSetting hxy⟩)
      · split
        · refine .bind (.next _) (.inl (Nat.le_refl _)) (.next _)
            (fun _ => .bind (passes_skipPast _) fun _ => .pure _) ?_
          intro _ _ _ _
          refine .bind (replays_skipPast _) (.inl (Nat.le_refl _)) (passes_skipPast _) (fun _ => .pure _) ?_
          intro _ _ _ _
          exact .pure (.inl ⟨_, _, rfl, rfl, h⟩)
        · refine .bind EnumValue.replays_read (.inl (Nat.le_refl _)) EnumValue.passes_read
            (fun _ => .pure _) ?_
          intro _ x y hxy
          exact .pure (.inl ⟨_, _, rfl, rfl, h.pushValue hxy⟩)
  · exact .refuse

-- ── Enums ────────────────────────────────────────────────────────────────────────

/-- The name of an enum and its opening brace. -/
def readHead : Reader (String × Token × Token) := do
  let (name, token) ← Reader.name .enumName
  let opening ← symbol '\x7b'
  pure (name, token, opening)

theorem proceeds_bodyStep (source : List Char) : Proceeds (bodyStep source) :=
  .of_takes (takes_bodyStep source)

/-- The body of an enum with its closing brace, and the comments that no value has collected. -/
def readBody (source : List Char) : Reader (Body × Token × List String) := do
  dropHeld
  let (body, closing) ← iterate (bodyStep source) (proceeds_bodyStep source) {}
  let dangling ← takeHeld
  pure (body, closing, dangling)

/-- An enum of its keyword, its head and its body. -/
def ofParts (keyword : Token) (x : String × Token × Token) (y : Body × Token × List String) : EnumDef :=
  { name := x.1, position := x.2.1.position, keyword := keyword.span, opening := x.2.2.span,
    closing := y.2.1.span, settings := y.1.settings, values := y.1.values, dangling := y.2.2,
    storage := none }

/-- How an enum is read. -/
theorem read_eq (source : List Char) (keyword : Token) :
    read source keyword = readHead >>= fun x => readBody source >>= fun y =>
      pure (ofParts keyword x y) := by
  simp only [read, readHead, readBody, ofParts, bind_assoc, pure_bind]

theorem bare_ofParts {keyword keyword' : Token} {x x' : String × Token × Token}
    {y y' : Body × Token × List String} (hx : x.1 = x'.1) (hy : y.1.Same y'.1) :
    (ofParts keyword x y).bare = (ofParts keyword' x' y').bare := by
  simp only [bare, ofParts, hx, hy.1, hy.2]

theorem passes_readHead : Passes source keeps readHead :=
  .bind (.name _) fun _ => .bind (.symbol _) fun _ => .pure _

theorem passes_readBody : Passes source false (readBody source') :=
  .bind .dropHeld fun _ => .bind (.iterate passes_bodyStep _) fun _ => .bind .takeHeld fun _ => .pure _

theorem passes_read (keyword : Token) : Passes source false (read source' keyword) := by
  rw [read_eq]
  exact .bind passes_readHead fun _ => .bind passes_readBody fun _ => .pure _

theorem replays_readHead :
    Replays source source' p q 0 (Outcome.value fun x y => x.1 = y.1) readHead readHead :=
  .nameThen _ _ fun _ _ _ _ _ => rfl

theorem replays_readBody :
    Replays source source' p q 0 (Outcome.value fun x y => x.1.Same y.1) (readBody source)
      (readBody source') := by
  refine .bind .dropHeld (.inl (Nat.le_refl _)) .dropHeld (fun _ =>
    .bind (.iterate passes_bodyStep _) fun _ => .bind .takeHeld fun _ => .pure _) ?_
  intro _ _ _ _
  refine .bind (.iterate (I := Outcome.value Body.Same)
      (R := Outcome.value fun x y => x.1.Same y.1) passes_bodyStep
      (fun _ b c hbc => replays_bodyStep hbc) ⟨rfl, rfl⟩)
    (.inl (Nat.le_refl _)) (.iterate passes_bodyStep _) (fun _ => .bind .takeHeld fun _ => .pure _) ?_
  intro _ x y hxy
  refine .bind .takeHeld (.inl (Nat.le_refl _)) .takeHeld (fun _ => .pure _) ?_
  intro _ _ _ _
  exact .pure hxy

/-- **An enum is read again as itself.** -/
theorem replays_read (keyword keyword' : Token) :
    Replays source source' p q 0 (Outcome.value fun x y => x.bare = y.bare) (read source keyword)
      (read source' keyword') := by
  rw [read_eq, read_eq]
  refine .bind replays_readHead (.inl (Nat.le_refl _)) passes_readHead
    (fun _ => .bind passes_readBody fun _ => .pure _) ?_
  intro _ x x' hx
  refine .bind replays_readBody (.inl (Nat.le_refl _)) passes_readBody (fun _ => .pure _) ?_
  intro _ y y' hy
  exact .pure (bare_ofParts hx hy)

end EnumDef

end FlagSchema
