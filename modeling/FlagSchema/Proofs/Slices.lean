import FlagSchema.Proofs.Spans
import FlagSchema.Proofs.Windows

/-!
# Slices within a text

`Text.slice` gives a part of the text for any span, and so do the functions that edit a text. A span names a part only
if it does not stop before it starts, lies within the text and cuts no character in two. Here every other span is
refused, and the spans that occur are shown not to be.

* **`Text.slice?`**: the part that a span names; **`Text.slice?_eq_some_iff`**: which spans name one.
* **`Edit.splice?`**, **`Edit.lineBefore?`**: making edits and looking at a line, with every slice checked.
* **`Token.Inside.slice?`**: spans between tokens name a part of the source.
* **`Edit.Windows.splice?`**: edits of windows are made with slices of the source.
-/

namespace FlagSchema

-- ── Checked slices ───────────────────────────────────────────────────────────────

namespace Text

/-- An offset stands between two characters of a text, or at one of its ends. -/
def isBoundary (cs : List Char) (offset : Nat) : Bool :=
  byteSize (splitAtByte offset cs).1 == offset

/-- The part of a text that a span names. None, if the span stops before it starts, or one of its ends is outside
    the text or inside a character. -/
def slice? (cs : List Char) (span : Span) : Option (List Char) :=
  if span.start ≤ span.stop ∧ isBoundary cs span.start = true ∧ isBoundary cs span.stop = true then
    some (slice cs span)
  else none

variable {cs : List Char} {span : Span}

theorem isBoundary_iff {offset : Nat} :
    isBoundary cs offset = true ↔ ∃ front back, cs = front ++ back ∧ offset = byteSize front := by
  constructor
  · intro h
    exact ⟨_, _, (splitAtByte_append offset cs).symm, (beq_iff_eq.mp h).symm⟩
  · rintro ⟨front, back, rfl, rfl⟩
    rw [isBoundary, splitAtByte_byteSize]
    exact beq_self_eq_true _

theorem slice?_of_isBoundary (hle : span.start ≤ span.stop) (hstart : isBoundary cs span.start = true)
    (hstop : isBoundary cs span.stop = true) : slice? cs span = some (slice cs span) :=
  if_pos ⟨hle, hstart, hstop⟩

/-- **A span names a part of a text exactly if it is that of the part.** -/
theorem slice?_eq_some_iff {inside : List Char} :
    slice? cs span = some inside ↔
      ∃ before after, cs = before ++ inside ++ after ∧ span = ⟨byteSize before, byteSize (before ++ inside)⟩ := by
  obtain ⟨start, stop⟩ := span
  constructor
  · intro h
    unfold slice? at h
    split at h
    · next hspan =>
        obtain ⟨hle, hstart, hstop⟩ := hspan
        obtain ⟨before, rest, hbefore, rfl⟩ := isBoundary_iff.mp hstart
        obtain ⟨front, after, rfl, rfl⟩ := isBoundary_iff.mp hstop
        -- The shorter front part is in front of the longer one.
        obtain ⟨middle, rfl⟩ := prefix_of_byteSize_le ⟨rest, hbefore.symm⟩ (List.prefix_append front after) hle
        cases h
        have hmiddle := slice_append before middle after
        rw [← byteSize_append] at hmiddle
        rw [hmiddle]
        exact ⟨before, after, rfl, rfl⟩
    · cases h
  · rintro ⟨before, after, rfl, hspan⟩
    cases hspan
    have hle : byteSize before ≤ byteSize (before ++ inside) := by
      rw [byteSize_append]
      exact Nat.le_add_right _ _
    rw [slice?_of_isBoundary hle (isBoundary_iff.mpr ⟨before, inside ++ after, List.append_assoc .., rfl⟩)
      (isBoundary_iff.mpr ⟨before ++ inside, after, rfl, rfl⟩), byteSize_append, slice_append]

/-- A span that ends inside a character is refused. -/
example : slice? ['é'] ⟨0, 2⟩ = some ['é'] ∧ slice? ['é'] ⟨0, 1⟩ = none := by decide

/-- A part of a text is named by its span. -/
theorem slice?_append (before inside after : List Char) :
    slice? (before ++ inside ++ after) ⟨byteSize before, byteSize (before ++ inside)⟩ = some inside :=
  slice?_eq_some_iff.mpr ⟨before, after, rfl, rfl⟩

/-- The front part of a text is named by its size. -/
theorem slice?_of_prefix {front : List Char} (h : front <+: cs) : slice? cs ⟨0, byteSize front⟩ = some front := by
  obtain ⟨back, rfl⟩ := h
  exact slice?_append [] front back

end Text

-- ── Checked edits ────────────────────────────────────────────────────────────────

namespace Edit

/-- A text from an offset on, with edits made in order. What is kept between them is cut out of the whole text. -/
def splice? (source : List Char) (offset : Nat) : List Edit → Option (List Char)
  | []      => Text.slice? source ⟨offset, Text.byteSize source⟩
  | e :: es => do
    let kept ← Text.slice? source ⟨offset, e.span.start⟩
    let rest ← splice? source e.span.stop es
    pure (kept ++ e.text.toList ++ rest)

/-- The offset behind the last line feed of a text; its start, if it has none. -/
def lineStart (front : List Char) : Nat :=
  Text.byteSize (front.reverse.dropWhile (· ≠ '\n')).reverse

/-- The characters between the start of a line and an offset in it. What is in front of the offset is cut out of the
    text first, then its last line. -/
def lineBefore? (source : List Char) (offset : Nat) : Option (List Char) := do
  let front ← Text.slice? source ⟨0, offset⟩
  Text.slice? source ⟨lineStart front, offset⟩

/-- **Edits of windows are made with slices of the text alone.** -/
theorem Windows.splice? {source front cs ds : List Char} {offset : Nat} {es : List Edit}
    (h : Windows offset es cs ds) (hsource : source = front ++ cs) (hoffset : offset = Text.byteSize front) :
    Edit.splice? source offset es = some ds := by
  induction h generalizing front with
  | same offset cs =>
      rw [Edit.splice?, hoffset, hsource]
      have hrest := Text.slice?_append front cs []
      rwa [List.append_nil] at hrest
  | @window offset e es kept old cs ds start stop notEmpty rest ih =>
      have hcut : source = front ++ kept ++ (old ++ cs) := by rw [hsource]; simp only [List.append_assoc]
      have hkept : Text.slice? source ⟨offset, e.span.start⟩ = some kept := by
        rw [hcut, start, hoffset, ← Text.byteSize_append]
        exact Text.slice?_append front kept (old ++ cs)
      have hstop : e.span.stop = Text.byteSize (front ++ kept ++ old) := by
        rw [stop, start, hoffset, Text.byteSize_append, Text.byteSize_append]
      have hbehind : source = front ++ kept ++ old ++ cs := by rw [hcut]; simp only [List.append_assoc]
      have hrest := ih hbehind hstop
      rw [Edit.splice?, hkept, hrest]
      rfl

/-- **The line in front of a boundary is a slice of the text**, and so is everything in front of the boundary. -/
theorem lineBefore?_of_isBoundary {source : List Char} {offset : Nat}
    (h : Text.isBoundary source offset = true) : lineBefore? source offset = some (lineBefore source offset) := by
  obtain ⟨front, back, rfl, rfl⟩ := Text.isBoundary_iff.mp h
  rw [lineBefore?, Text.slice?_of_prefix (List.prefix_append front back), lineBefore, Text.splitAtByte_byteSize]
  have hfront : (front.reverse.dropWhile (· ≠ '\n')).reverse ++ (front.reverse.takeWhile (· ≠ '\n')).reverse =
      front := by
    rw [← List.reverse_append, List.takeWhile_append_dropWhile, List.reverse_reverse]
  have hline := Text.slice?_append (front.reverse.dropWhile (· ≠ '\n')).reverse
    (front.reverse.takeWhile (· ≠ '\n')).reverse back
  rw [hfront] at hline
  exact hline

end Edit

-- ── Slices between tokens ────────────────────────────────────────────────────────

namespace Token

variable {source : List Char} {t u : Token} {us : List Token}

theorem Cuts.isBoundary_start {before spelling after : List Char} (h : t.Cuts source before spelling after) :
    Text.isBoundary source t.span.start = true := by
  rw [h.span]
  exact Text.isBoundary_iff.mpr ⟨before, spelling ++ after, by rw [h.text, List.append_assoc], rfl⟩

theorem Cuts.isBoundary_stop {before spelling after : List Char} (h : t.Cuts source before spelling after) :
    Text.isBoundary source t.span.stop = true := by
  rw [h.span]
  exact Text.isBoundary_iff.mpr ⟨before ++ spelling, after, h.text, rfl⟩

theorem Inside.isBoundary_start {span : Span} (h : Inside us span) (hus : Ordered source us) :
    Text.isBoundary source span.start = true := by
  obtain ⟨⟨t, ht, hstart⟩, -, -⟩ := h
  obtain ⟨_, _, _, ht⟩ := hus.cuts t ht
  exact hstart ▸ ht.isBoundary_start

/-- **A span that starts and stops where tokens do names a part of the source.** -/
theorem Inside.slice? {span : Span} (h : Inside us span) (hus : Ordered source us) :
    Text.slice? source span = some (Text.slice source span) := by
  have hstart := h.isBoundary_start hus
  obtain ⟨-, ⟨u, hu, hstop⟩, hlt⟩ := h
  obtain ⟨_, _, _, hu⟩ := hus.cuts u hu
  exact Text.slice?_of_isBoundary (Nat.le_of_lt hlt) hstart (hstop ▸ hu.isBoundary_stop)

/-- What is between two tokens is a part of the source. -/
theorem Ordered.slice?_between (hus : Ordered source us) (ht : t ∈ us) (hu : u ∈ us)
    (hle : t.span.stop ≤ u.span.start) :
    Text.slice? source ⟨t.span.stop, u.span.start⟩ = some (Text.slice source ⟨t.span.stop, u.span.start⟩) := by
  obtain ⟨_, _, _, ht⟩ := hus.cuts t ht
  obtain ⟨_, _, _, hu⟩ := hus.cuts u hu
  exact Text.slice?_of_isBoundary hle ht.isBoundary_stop hu.isBoundary_start

end Token

end FlagSchema
