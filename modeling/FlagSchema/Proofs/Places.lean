import FlagSchema.Proofs.Words

/-!
# Words in a source

Words that the scanner finds in a source can be cut out of it by the spans of their tokens.

* **`Lies`**: the scanner finds words in a source, behind a place in it.
* **`Lies.slice`**, **`Lies.slice_between`**: cutting them out by their spans.
* **`comments`**: the comments among words.
-/

namespace FlagSchema

namespace Text

/-- The span of a middle part of a text cuts that part out. -/
theorem slice_append (before mid after : List Char) :
    slice (before ++ mid ++ after) ⟨byteSize before, byteSize before + byteSize mid⟩ = mid := by
  rw [slice, List.append_assoc, splitAtByte_byteSize]
  show (splitAtByte (byteSize before + byteSize mid - byteSize before) (mid ++ after)).1 = mid
  rw [Nat.add_sub_cancel_left, splitAtByte_byteSize]

/-- The shorter of two front parts of a text is in front of the longer one. -/
theorem prefix_of_byteSize_le {cs ds all : List Char} (hcs : cs <+: all) (hds : ds <+: all)
    (h : byteSize cs ≤ byteSize ds) : cs <+: ds := by
  rcases List.prefix_or_prefix_of_prefix hcs hds with hprefix | ⟨rest, rfl⟩
  · exact hprefix
  · cases rest with
    | nil => simp
    | cons c rest =>
        have hpos := byteSize_pos (List.cons_ne_nil c rest)
        rw [byteSize_append] at h
        omega

end Text

namespace Token

/-- The scanner finds words in a source, behind a place in it. -/
def Lies (source : List Char) (p : Place) (ws : List Word) : Prop :=
  ∃ before after, source = before ++ textOf ws ++ after ∧ p.offset = Text.byteSize before ∧
    Reads after ws

theorem offset_after_start (cs : List Char) : (({} : Place).after cs).offset = Text.byteSize cs :=
  (Place.offset_after ..).trans (Nat.zero_add _)

/-- Words behind a text lie where the text ends. -/
theorem lies_after {source before tail : List Char} {ws : List Word}
    (hsource : source = before ++ (textOf ws ++ tail)) (h : Reads tail ws) :
    Lies source (({} : Place).after before) ws :=
  ⟨before, tail, hsource.trans (List.append_assoc ..).symm, offset_after_start before, h⟩

/-- Words that a text starts with lie where it starts. -/
theorem lies_start {source tail : List Char} {ws : List Word} (hsource : source = textOf ws ++ tail)
    (h : Reads tail ws) : Lies source {} ws :=
  ⟨[], tail, hsource, rfl, h⟩

namespace Lies

variable {source : List Char} {p : Place}

theorem left {ws vs : List Word} (h : Lies source p (ws ++ vs)) : Lies source p ws := by
  obtain ⟨before, after, hs, hp, hr⟩ := h
  refine ⟨before, textOf vs ++ after, ?_, hp, (reads_append.mp hr).1⟩
  rw [hs, textOf_append]
  simp only [List.append_assoc]

theorem right {ws vs : List Word} (h : Lies source p (ws ++ vs)) :
    Lies source (p.after (textOf ws)) vs := by
  obtain ⟨before, after, hs, hp, hr⟩ := h
  refine ⟨before ++ textOf ws, after, ?_, ?_, (reads_append.mp hr).2⟩
  · rw [hs, textOf_append]
    simp only [List.append_assoc]
  · rw [Place.offset_after, hp, Text.byteSize_append]

theorem tail {w : Word} {ws : List Word} (h : Lies source p (w :: ws)) :
    Lies source (p.after w.text) ws := by
  have happ : Lies source p ([w] ++ ws) := h
  simpa using happ.right

/-- The text from the end of a place to a later one inside words. -/
theorem slice_between {ws vs : List Word} {v : Word} (h : Lies source p (ws ++ v :: vs)) :
    Text.slice source ⟨p.offset, ((p.after (textOf ws)).after v.blank).offset⟩
      = textOf ws ++ v.blank := by
  obtain ⟨before, after, hs, hp, -⟩ := h
  have hsource : source
      = before ++ (textOf ws ++ v.blank) ++ (v.spelling ++ textOf vs ++ after) := by
    rw [hs, textOf_append, textOf_cons, Word.text]
    simp only [List.append_assoc]
  rw [← Place.after_append, Place.offset_after, hp, hsource]
  exact Text.slice_append before (textOf ws ++ v.blank) _

/-- The text of words without the blanks in front. -/
theorem slice {w : Word} {ws : List Word} (h : Lies source p (w :: ws)) :
    Text.slice source ⟨(p.after w.blank).offset, (p.after (textOf (w :: ws))).offset⟩
      = w.spelling ++ textOf ws := by
  obtain ⟨before, after, hs, hp, -⟩ := h
  have hsource : source = (before ++ w.blank) ++ (w.spelling ++ textOf ws) ++ after := by
    rw [hs, textOf_cons, Word.text]
    simp only [List.append_assoc]
  have hslice := Text.slice_append (before ++ w.blank) (w.spelling ++ textOf ws) after
  rw [← hsource] at hslice
  rw [Place.offset_after, Place.offset_after, hp, textOf_cons, Word.text, List.append_assoc]
  rw [Text.byteSize_append] at hslice ⊢
  rw [← Nat.add_assoc]
  exact hslice

/-- The text of a word is its spelling. -/
theorem slice_token {ws vs : List Word} {v : Word} (h : Lies source p (ws ++ v :: vs)) :
    Text.slice source (v.token (p.after (textOf ws))).span = v.spelling := by
  have hv : Lies source (p.after (textOf ws)) ([v] ++ vs) := h.right
  have hslice := hv.left.slice
  rw [textOf_nil, List.append_nil, textOf_cons, textOf_nil, List.append_nil] at hslice
  exact hslice

/-- The spellings of words are what the spans of their tokens cut out of the source. -/
theorem slices_placed {ws : List Word} (h : Lies source p ws) :
    (placed p ws).map (fun t => Text.slice source t.span) = ws.map Word.spelling := by
  induction ws generalizing p with
  | nil => rfl
  | cons w ws ih =>
      have hfirst : Lies source p ([] ++ w :: ws) := h
      rw [placed_cons, List.map_cons, List.map_cons, ih h.tail]
      exact congrArg (· :: ws.map Word.spelling) hfirst.slice_token

end Lies

-- ── Comments among words ─────────────────────────────────────────────────────────

/-- The text of a comment. -/
def Kind.comment? : Kind → Option String
  | .comment text => some text
  | _             => none

/-- The comments among words. -/
def comments (ws : List Word) : List String := ws.filterMap fun w => w.kind.comment?

@[simp] theorem comments_nil : comments [] = [] := rfl

@[simp] theorem comments_append (ws vs : List Word) :
    comments (ws ++ vs) = comments ws ++ comments vs :=
  List.filterMap_append

theorem comments_cons_comment {w : Word} {text : String} (h : w.kind = .comment text)
    (ws : List Word) : comments (w :: ws) = text :: comments ws := by
  rw [comments, List.filterMap_cons, h]
  rfl

theorem comments_cons {w : Word} (h : w.kind.isComment = false) (ws : List Word) :
    comments (w :: ws) = comments ws := by
  rw [comments, List.filterMap_cons]
  cases hk : w.kind with
  | comment text => rw [hk] at h; cases h
  | _ => rfl

/-- The tokens that are no comments. -/
def significant (ts : List Token) : List Token := ts.filter fun t => !t.kind.isComment

@[simp] theorem significant_nil : significant [] = [] := rfl

@[simp] theorem significant_append (ts us : List Token) :
    significant (ts ++ us) = significant ts ++ significant us :=
  List.filter_append ..

theorem significant_cons {t : Token} (h : t.kind.isComment = false) (ts : List Token) :
    significant (t :: ts) = t :: significant ts := by
  rw [significant, List.filter_cons_of_pos (by simp [h])]
  rfl

theorem significant_cons_comment {t : Token} (h : t.kind.isComment = true) (ts : List Token) :
    significant (t :: ts) = significant ts := by
  rw [significant, List.filter_cons_of_neg (by simp [h])]
  rfl

/-- Comments alone hold no significant token. -/
theorem significant_placed_comments {p : Place} {ws : List Word}
    (h : ∀ w ∈ ws, w.kind.isComment = true) : significant (placed p ws) = [] := by
  induction ws generalizing p with
  | nil => rfl
  | cons w ws ih =>
      rw [placed_cons, significant_cons_comment (h w (List.mem_cons_self ..))]
      exact ih fun v hv => h v (List.mem_cons_of_mem _ hv)

/-- A significant word behind comments. -/
theorem significant_placed_cons {p : Place} {cs ws : List Word} {w : Word}
    (hcs : ∀ c ∈ cs, c.kind.isComment = true) (hw : w.kind.isComment = false) :
    significant (placed p (cs ++ w :: ws)) = w.token (p.after (textOf cs)) ::
      significant (placed (p.after (textOf (cs ++ [w]))) ws) := by
  rw [placed_append, significant_append, significant_placed_comments hcs, List.nil_append, placed_cons,
    significant_cons hw, textOf_append, textOf_cons, textOf_nil, List.append_nil, Place.after_append]

/-- The offset at which the first significant word starts. -/
def startOf (p : Place) : List Word → Nat
  | []      => p.offset
  | w :: ws => if w.kind.isComment then startOf (p.after w.text) ws else (p.after w.blank).offset

/-- The span from the first significant word to the end of the last word. -/
def spanOf (p : Place) (ws : List Word) : Span :=
  ⟨startOf p ws, (p.after (textOf ws)).offset⟩

theorem startOf_cons {p : Place} {w : Word} (hw : w.kind.isComment = false) (ws : List Word) :
    startOf p (w :: ws) = (p.after w.blank).offset := by
  rw [startOf, hw]
  rfl

/-- Comments in front do not count. -/
theorem startOf_comments {p : Place} {cs ws : List Word} {w : Word}
    (hcs : ∀ c ∈ cs, c.kind.isComment = true) (hw : w.kind.isComment = false) :
    startOf p (cs ++ w :: ws) = ((p.after (textOf cs)).after w.blank).offset := by
  induction cs generalizing p with
  | nil => exact startOf_cons hw ws
  | cons c cs ih =>
      show (if c.kind.isComment then _ else _) = _
      rw [hcs c (List.mem_cons_self ..), textOf_cons, Place.after_append]
      exact ih fun d hd => hcs d (List.mem_cons_of_mem _ hd)

/-- Words behind the first significant one do not count. -/
theorem startOf_append {p : Place} {ws vs : List Word} (h : significant (placed p ws) ≠ []) :
    startOf p (ws ++ vs) = startOf p ws := by
  induction ws generalizing p with
  | nil => exact absurd rfl h
  | cons w ws ih =>
      show (if w.kind.isComment then _ else _) = (if w.kind.isComment then _ else _)
      cases hw : w.kind.isComment with
      | true =>
          rw [placed_cons, significant_cons_comment hw] at h
          exact ih h
      | false => rfl

/-- Comments in front do not move the span of what is behind them. -/
theorem spanOf_comments {p : Place} {cs ws : List Word} {w : Word}
    (hcs : ∀ c ∈ cs, c.kind.isComment = true) (hw : w.kind.isComment = false) :
    spanOf p (cs ++ w :: ws) = spanOf (p.after (textOf cs)) (w :: ws) := by
  rw [spanOf, spanOf, startOf_comments hcs hw, startOf_cons hw, textOf_append, Place.after_append]

/-- Words with a significant one start with comments and a significant one. -/
theorem exists_first {p : Place} {ws : List Word} (h : significant (placed p ws) ≠ []) :
    ∃ cs w us, ws = cs ++ w :: us ∧ (∀ c ∈ cs, c.kind.isComment = true) ∧
      w.kind.isComment = false := by
  induction ws generalizing p with
  | nil => exact absurd rfl h
  | cons w ws ih =>
      cases hw : w.kind.isComment with
      | false => exact ⟨[], w, ws, rfl, nofun, hw⟩
      | true =>
          rw [placed_cons, significant_cons_comment hw] at h
          obtain ⟨cs, v, us, rfl, hcs, hv⟩ := ih h
          refine ⟨w :: cs, v, us, rfl, ?_, hv⟩
          intro c hc
          rcases List.mem_cons.mp hc with rfl | hc
          · exact hw
          · exact hcs c hc

/-- The same words have significant tokens of the same kinds wherever they stand. -/
theorem kinds_significant_placed (p q : Place) (ws : List Word) :
    (significant (placed p ws)).map Token.kind = (significant (placed q ws)).map Token.kind := by
  induction ws generalizing p q with
  | nil => rfl
  | cons w ws ih =>
      rw [placed_cons, placed_cons]
      cases hw : w.kind.isComment with
      | true => rw [significant_cons_comment hw, significant_cons_comment hw, ih]
      | false =>
          rw [significant_cons hw, significant_cons hw, List.map_cons, List.map_cons, ih]
          rfl

end Token

end FlagSchema
