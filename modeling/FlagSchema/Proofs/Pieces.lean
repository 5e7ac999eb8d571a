import FlagSchema.Proofs.Boundaries
import FlagSchema.Proofs.Places
import FlagSchema.Proofs.Windows

/-!
# Texts in pieces

A text whose words are tagged: some stay, some are replaced by other words. If the new words fit where
the old ones stood, the new text is read as the new words, and it differs from the old text in the
windows of the replaced words alone.

* **`Piece`**: words that stay, or words that others replace.
* **`Fits`**: the new words fit, whatever else changes.
* **`Fits.reads`**: the new text is read as the new words.
* **`Fits.windows`**: the edits of the pieces lead from the old text to the new one.
-/

namespace FlagSchema

namespace Token

-- ── What a word may tell of the text behind it ───────────────────────────────────

/-- A name or a symbol that stays apart from every name behind it. -/
def Kind.Parts (k : Kind) : Prop :=
  (∃ name, k = .ident name) ∨ ∃ c, k = .symbol c ∧ c ≠ '.' ∧ c ≠ '/'

theorem Kind.Parts.isComment_eq_false {k : Kind} (h : k.Parts) : k.isComment = false := by
  rcases h with ⟨name, rfl⟩ | ⟨c, rfl, -⟩ <;> rfl

theorem Kind.Parts.ne_dot {k : Kind} (h : k.Parts) : k ≠ .symbol '.' := by
  rintro rfl
  rcases h with ⟨name, h⟩ | ⟨c, h, hc, -⟩
  · cases h
  · cases h; exact hc rfl

/-- A word in front of one text, of the kind `k` if it is no comment, is there in front of the other. -/
def Alike (k : Option Kind) (cs ds : List Char) : Prop :=
  SameFront cs ds ∨ ((∀ kind ∈ k, kind.Parts) ∧ NameHead cs)

/-- A comment or a word of the kind in front of one text is there in front of the other. -/
theorem Word.Leads.of_alike {w : Word} {k : Option Kind} {cs ds : List Char} (h : w.Leads cs)
    (ha : Alike k cs ds) (hk : w.kind.isComment = true ∨ k = some w.kind) : w.Leads ds := by
  rcases ha with ha | ⟨hparts, hname⟩
  · exact h.of_sameFront ha
  rcases hk with hk | rfl
  · obtain ⟨c, xs, rfl, hc⟩ := hname
    have hn : c ≠ '\n' := by
      rintro rfl
      rcases hc with hc | ⟨hc, -⟩
      · revert hc; decide
      · revert hc; decide
    cases hkind : w.kind with
    | comment text => exact h.of_comment hkind rfl hn ds
    | _ => rw [hkind] at hk; cases hk
  · rcases hparts w.kind rfl with ⟨name, hident⟩ | ⟨c, hsymbol, hdot, hslash⟩
    · exact absurd (h.nameEnds hident) hname.not_nameEnds
    · exact h.of_symbol hsymbol hdot hslash ds

/-- A name and every word of its kind leave the texts behind them alike to each other. -/
theorem Alike.sameFront {w : Word} {name : String} {cs ds : List Char}
    (ha : Alike (some (.ident name)) cs ds) (h : w.Leads cs) (hk : w.kind = .ident name) :
    SameFront cs ds := by
  rcases ha with ha | ⟨-, hname⟩
  · exact ha
  · exact absurd (h.nameEnds hk) hname.not_nameEnds

/-- A dot in front of a name is a symbol. -/
theorem Word.Leads.kind_of_dot {w : Word} {cs : List Char} (h : w.Leads cs) (hw : w.spelling = ['.'])
    (hname : NameHead cs) : w.kind = .symbol '.' := by
  cases h.form with
  | symbol c spelling kind start slash dot =>
      rw [hw, List.cons.injEq] at spelling
      rw [kind, ← spelling.1]
  | lineComment xs spelling kind ends => rw [hw] at spelling; cases spelling
  | blockComment xs spelling kind ends => rw [hw] at spelling; cases spelling
  | number c xs isFloat spelling start kind ends =>
      rw [hw, List.cons.injEq] at spelling
      obtain ⟨rfl, rfl⟩ := spelling
      exfalso
      rcases start with start | ⟨-, start⟩
      · revert start; decide
      · obtain ⟨c, ds, rfl, hc⟩ := hname
        have hdigit : c.isDigit = true := start
        rcases hc with hc | ⟨rfl, -⟩
        · rw [(isNameStart_excludes hc).1] at hdigit; cases hdigit
        · revert hdigit; decide
  | name c xs spelling start kind ends => exact absurd (nameEnds_of_cutName ends) hname.not_nameEnds
  | string quote xs value spelling start kind ends =>
      rw [hw, List.cons.injEq] at spelling
      obtain ⟨rfl, -⟩ := spelling
      rcases start with start | start <;> cases start

-- ── Words that stay ──────────────────────────────────────────────────────────────

/-- The kind of the last significant word, of words behind one of the kind `k`. -/
def lastKind (k : Option Kind) : List Word → Option Kind
  | []      => k
  | w :: ws => lastKind (if w.kind.isComment then k else some w.kind) ws

theorem lastKind_append (k : Option Kind) (ws vs : List Word) :
    lastKind k (ws ++ vs) = lastKind (lastKind k ws) vs := by
  induction ws generalizing k with
  | nil => rfl
  | cons w ws ih => exact ih _

theorem lastKind_concat (k : Option Kind) (ws : List Word) {w : Word} (h : w.kind.isComment = false) :
    lastKind k (ws ++ [w]) = some w.kind := by
  rw [lastKind_append, lastKind, h]
  rfl

theorem lastKind_comments (k : Option Kind) {ws : List Word} (h : ∀ w ∈ ws, w.kind.isComment = true) :
    lastKind k ws = k := by
  induction ws with
  | nil => rfl
  | cons w ws ih =>
      rw [lastKind, if_pos (h w (List.mem_cons_self ..))]
      exact ih fun v hv => h v (List.mem_cons_of_mem _ hv)

/-- Words that do not run into a name behind them, unless they are comments and what is in front of them
    does. -/
def Apart (ws : List Word) : Prop :=
  ∀ k : Option Kind, (∀ kind ∈ k, kind.Parts) → ∀ kind ∈ lastKind k ws, kind.Parts

theorem Apart.of_comments {ws : List Word} (h : ∀ w ∈ ws, w.kind.isComment = true) : Apart ws := by
  intro k hk
  rw [lastKind_comments k h]
  exact hk

theorem Apart.append {ws vs : List Word} (h : Apart ws) (hv : Apart vs) : Apart (ws ++ vs) := by
  intro k hk
  rw [lastKind_append]
  exact hv _ (h k hk)

theorem Apart.concat (ws : List Word) {w : Word} (hw : w.kind.Parts) : Apart (ws ++ [w]) := by
  intro k _ kind hkind
  rw [lastKind_concat k ws hw.isComment_eq_false, Option.mem_some_iff] at hkind
  exact hkind ▸ hw

/-- Words that stay in front of texts that they do not tell apart. -/
theorem reads_of_alike {k : Option Kind} {ws : List Word} {cs ds : List Char} (h : Reads cs ws)
    (ha : Alike (lastKind k ws) cs ds) :
    Reads ds ws ∧ Alike k (textOf ws ++ cs) (textOf ws ++ ds) := by
  induction ws generalizing k with
  | nil => exact ⟨reads_nil _, ha⟩
  | cons w ws ih =>
      obtain ⟨hblank, hleads, hws⟩ := h
      obtain ⟨hreads, halike⟩ := ih hws ha
      have hleads' : w.Leads (textOf ws ++ ds) := by
        refine hleads.of_alike halike ?_
        cases hw : w.kind.isComment with
        | true => exact .inl rfl
        | false => exact .inr rfl
      refine ⟨⟨hblank, hleads', hreads⟩, .inl ?_⟩
      rw [textOf_cons, List.append_assoc, List.append_assoc]
      rcases halike with halike | ⟨hparts, hname⟩
      · exact halike.append _
      -- A dot in front of a name would be a symbol that does not stay apart from it.
      refine .of_common hleads.text_ne_nil (fun htext => ?_) _ _
      have hkind := hleads.kind_of_dot (hleads.spelling_of_text htext) hname
      exact (hparts w.kind (by rw [hkind]; rfl)).ne_dot hkind

/-- Words stay where the last of them does, if that is no lone dot. -/
theorem Reads.of_last {ws : List Word} {w : Word} {cs ds : List Char} (h : Reads cs (ws ++ [w]))
    (hdot : w.text ≠ ['.']) (hw : w.Leads ds) : Reads ds (ws ++ [w]) := by
  obtain ⟨hws, hblank, hleads, -⟩ := reads_append.mp h
  have hfront : SameFront (textOf [w] ++ cs) (textOf [w] ++ ds) := by
    rw [textOf_cons, textOf_nil, List.append_nil w.text]
    exact .of_common hleads.text_ne_nil hdot _ _
  have hws' := (reads_of_alike (k := none) hws (.inl hfront)).1
  exact reads_append.mpr ⟨hws', hblank, hw, reads_nil _⟩

end Token

open Token

-- ── Pieces ───────────────────────────────────────────────────────────────────────

/-- A part of a text and what becomes of it. -/
inductive Piece where
  /-- Words that stay. -/
  | keep (ws : List Word)
  /-- Words that others replace. -/
  | swap (old new : List Word)

namespace Piece

/-- The words of a piece before. -/
def old : Piece → List Word
  | .keep ws  => ws
  | .swap o _ => o

/-- The words of a piece afterwards. -/
def new : Piece → List Word
  | .keep ws  => ws
  | .swap _ n => n

/-- The words of pieces before. -/
def olds (ps : List Piece) : List Word := ps.flatMap old

/-- The words of pieces afterwards. -/
def news (ps : List Piece) : List Word := ps.flatMap new

@[simp] theorem olds_nil : olds [] = [] := rfl

@[simp] theorem olds_cons (x : Piece) (ps : List Piece) : olds (x :: ps) = x.old ++ olds ps := rfl

@[simp] theorem olds_append (ps qs : List Piece) : olds (ps ++ qs) = olds ps ++ olds qs :=
  List.flatMap_append

@[simp] theorem news_nil : news [] = [] := rfl

@[simp] theorem news_cons (x : Piece) (ps : List Piece) : news (x :: ps) = x.new ++ news ps := rfl

@[simp] theorem news_append (ps qs : List Piece) : news (ps ++ qs) = news ps ++ news qs :=
  List.flatMap_append

/-- The text of words without the blanks in front of the first. -/
def core : List Word → List Char
  | []      => []
  | w :: ws => w.spelling ++ textOf ws

/-- The edits that replace what is replaced in pieces that start at a place. -/
def edits (p : Place) : List Piece → List Edit
  | []              => []
  | .keep ws :: ps  => edits (p.after (textOf ws)) ps
  | .swap o n :: ps =>
    { span := spanOf p o, text := String.ofList (core n) } :: edits (p.after (textOf o)) ps

theorem edits_append (p : Place) (ps qs : List Piece) :
    edits p (ps ++ qs) = edits p ps ++ edits (p.after (textOf (olds ps))) qs := by
  induction ps generalizing p with
  | nil => rfl
  | cons x ps ih =>
      rw [olds_cons, textOf_append, Place.after_append]
      cases x with
      | keep ws => exact ih _
      | swap o n =>
          rw [List.cons_append, edits, edits, ih]
          rfl

/-- New words fit in the place of old ones, behind a word of the kind `k` and in front of others that
    stay. -/
structure Swaps (k : Option Kind) (old new after : List Word) : Prop where
  start : ∃ w ws v vs, old = w :: ws ∧ new = v :: vs ∧ w.blank = v.blank ∧ w.kind.isComment = false
  front : ∀ cs ds, Alike k (textOf old ++ cs) (textOf new ++ ds)
  reads : ∀ cs ds, Alike (lastKind k (old ++ after)) cs ds → Reads cs (old ++ after) →
    Reads ds (new ++ after)

/-- Pieces fit behind a word of the kind `k`: words that stay follow all that are replaced. -/
inductive Fits : Option Kind → List Piece → Prop where
  | nil (k : Option Kind) : Fits k []
  | keep {k : Option Kind} {ws : List Word} {ps : List Piece} (rest : Fits (lastKind k ws) ps) :
      Fits k (.keep ws :: ps)
  | swap {k : Option Kind} {old new after : List Word} {ps : List Piece}
      (swaps : Swaps k old new after) (rest : Fits (lastKind k (old ++ after)) ps) :
      Fits k (.swap old new :: .keep after :: ps)

namespace Fits

variable {k : Option Kind} {ps qs : List Piece} {tail : List Char}

theorem append (h : Fits k ps) (hq : Fits (lastKind k (olds ps)) qs) : Fits k (ps ++ qs) := by
  induction h with
  | nil => exact hq
  | keep rest ih =>
      refine .keep (ih ?_)
      rw [olds_cons, lastKind_append] at hq
      exact hq
  | swap swaps rest ih =>
      refine .swap swaps (ih ?_)
      rw [olds_cons, olds_cons, ← List.append_assoc, lastKind_append] at hq
      exact hq

/-- Words that stay are one piece. -/
theorem single (k : Option Kind) (ws : List Word) : Fits k [.keep ws] := .keep (.nil _)

/-- **The new text is read as the new words.** -/
theorem reads (h : Fits k ps) (hr : Reads tail (olds ps)) :
    Reads tail (news ps) ∧ Alike k (textOf (olds ps) ++ tail) (textOf (news ps) ++ tail) := by
  induction h with
  | nil => exact ⟨reads_nil _, .inl (.refl _)⟩
  | @keep k ws ps rest ih =>
      obtain ⟨hws, hps⟩ := reads_append.mp hr
      obtain ⟨hreads, halike⟩ := ih hps
      obtain ⟨hws', halike'⟩ := reads_of_alike hws halike
      rw [olds_cons, news_cons, textOf_append, textOf_append, List.append_assoc, List.append_assoc]
      exact ⟨reads_append.mpr ⟨hws', hreads⟩, halike'⟩
  | @swap k old new after ps swaps rest ih =>
      have hold : olds (.swap old new :: .keep after :: ps) = old ++ after ++ olds ps :=
        (List.append_assoc ..).symm
      have hnew : news (.swap old new :: .keep after :: ps) = new ++ after ++ news ps :=
        (List.append_assoc ..).symm
      rw [hold] at hr ⊢
      rw [hnew]
      obtain ⟨hws, hps⟩ := reads_append.mp hr
      obtain ⟨hreads, halike⟩ := ih hps
      refine ⟨reads_append.mpr ⟨swaps.reads _ _ halike hws, hreads⟩, ?_⟩
      simp only [textOf_append, List.append_assoc]
      exact swaps.front _ _

/-- **The edits of the pieces lead from the old text to the new one.** -/
theorem windows (h : Fits k ps) (hr : Reads tail (olds ps)) (p : Place) :
    Edit.Windows p.offset (edits p ps) (textOf (olds ps) ++ tail) (textOf (news ps) ++ tail) := by
  have hkeep : ∀ {p : Place} {ws : List Word} {ps : List Piece},
      Edit.Windows (p.after (textOf ws)).offset (edits (p.after (textOf ws)) ps)
        (textOf (olds ps) ++ tail) (textOf (news ps) ++ tail) →
      Edit.Windows p.offset (edits p (.keep ws :: ps)) (textOf (olds (.keep ws :: ps)) ++ tail)
        (textOf (news (.keep ws :: ps)) ++ tail) := by
    intro p ws ps hps
    rw [olds_cons, news_cons, textOf_append, textOf_append, List.append_assoc, List.append_assoc]
    exact hps.prepend _ (Place.offset_after ..)
  induction h generalizing p with
  | nil => exact .same ..
  | keep rest ih => exact hkeep (ih (reads_append.mp hr).2 _)
  | @swap k old new after ps swaps rest ih =>
      obtain ⟨hold, hrest⟩ := reads_append.mp hr
      have hafter := hkeep (ih (reads_append.mp hrest).2 ((p.after (textOf old)).after (textOf after)))
      obtain ⟨w, ws, v, vs, rfl, rfl, hblank, hw⟩ := swaps.start
      obtain ⟨c, xs, hspelling, -⟩ := hold.2.1.graphic
      have hcore : (String.ofList (core (v :: vs))).toList = v.spelling ++ textOf vs :=
        String.toList_ofList
      have hstart : (spanOf p (w :: ws)).start = (p.after w.blank).offset :=
        startOf_cons hw ws
      rw [olds_cons, news_cons, textOf_append, textOf_append, List.append_assoc, List.append_assoc]
      show Edit.Windows _ _ (w.text ++ textOf ws ++ _) (v.text ++ textOf vs ++ _)
      rw [Word.text, Word.text, ← hblank, List.append_assoc w.blank w.spelling,
        List.append_assoc w.blank v.spelling, ← hcore]
      refine .window ?_ ?_ ?_ hafter
      · rw [← Place.offset_after]
        exact hstart
      · show (p.after (textOf (w :: ws))).offset = _
        rw [hstart, textOf_cons, Word.text, List.append_assoc, Place.after_append,
          Place.offset_after (p.after w.blank)]
      · rw [hspelling]
        exact List.cons_ne_nil _ _

end Fits

end Piece

end FlagSchema
