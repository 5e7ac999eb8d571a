import Mathlib.Algebra.BigOperators.Group.List.Basic
import Mathlib.Algebra.Order.Group.Multiset
import Mathlib.Tactic.Abel
import FlagSchema.Proofs.Holding
import FlagSchema.Proofs.Pieces

/-!
# What becomes of a text

The account of a text in pieces: the edits that it asks for, and what becomes of its comments. Accounts
add up, so that of a schema is the sum of those of its fields and enums, in whatever order they are read.

* **`Change`**: edits, the comments that go with what they replace, and those written a second time.
* **`Recast`**: pieces have an account, and their new words fit.
* **`Text.comments`**: the comments of a text.
* **`Swaps.name`**: a name in the place of another.
-/

namespace FlagSchema

open Token Piece

-- ── Comments of texts ────────────────────────────────────────────────────────────

/-- The comments of a text, as the scanner finds them. -/
def Text.comments (cs : List Char) : Multiset String :=
  match scan {} cs with
  | .ok ts   => ts.filterMap fun t => t.kind.comment?
  | .error _ => 0

namespace Token

theorem comments_placed (p : Place) (ws : List Word) :
    (placed p ws).filterMap (fun t => t.kind.comment?) = comments ws := by
  induction ws generalizing p with
  | nil => rfl
  | cons w ws ih =>
      rw [placed_cons, comments, List.filterMap_cons, List.filterMap_cons, ih]
      rfl

/-- The comments of words are those of their text. -/
theorem comments_textOf {ws : List Word} {tail : List Char} (h : Reads tail ws)
    (ht : tail.all Text.isBlank = true) : Text.comments (textOf ws ++ tail) = comments ws := by
  rw [Text.comments, scan_words _ h ht]
  show (((placed {} ws).filterMap fun t => t.kind.comment? : List String) : Multiset String) = _
  rw [comments_placed]

theorem Word.Leads.text_ne_dot {w : Word} {cs : List Char} (h : w.Leads cs) (hk : w.kind.Parts) :
    w.text ≠ ['.'] := by
  intro htext
  have hspelling := h.spelling_of_text htext
  rcases hk with ⟨name, hk⟩ | ⟨c, hk, hdot, -⟩
  · obtain ⟨c, ds, hhead, hstart⟩ := (h.name_form hk).1
    rw [hspelling] at hhead
    cases hhead
    rcases hstart with hstart | ⟨-, hnext⟩
    · revert hstart; decide
    · cases hnext
  · have hsymbol := (h.symbol_form hk).1
    rw [hspelling, List.cons.injEq] at hsymbol
    exact hdot hsymbol.1.symm

/-- The comments of words are those of what their span cuts out of the source. -/
theorem Lies.comments_slice {source : List Char} {p : Place} {w : Word} {ws : List Word}
    (h : Lies source p (w :: ws)) (hw : w.kind.isComment = false) :
    Text.comments (Text.slice source (spanOf p (w :: ws))) = Token.comments (w :: ws) := by
  rw [spanOf, startOf_cons hw, h.slice]
  obtain ⟨before, after, -, -, hreads⟩ := h
  obtain ⟨-, hl, hr⟩ := reads_of_lineEnd hreads atLineEnd_nil
  have halone : Reads [] ({ w with blank := [] } :: ws) := ⟨rfl, hl, hr⟩
  have hcomments := comments_textOf halone rfl
  rw [List.append_nil] at hcomments
  exact hcomments

end Token

-- ── Accounts ─────────────────────────────────────────────────────────────────────

/-- What becomes of a text: the edits, the comments that are gone afterwards and those that are there
    once more. -/
@[ext]
structure Change where
  edits : Multiset Edit := 0
  gone  : Multiset String := 0
  twice : Multiset String := 0

namespace Change

instance : Zero Change := ⟨{}⟩

instance : Add Change := ⟨fun a b => ⟨a.edits + b.edits, a.gone + b.gone, a.twice + b.twice⟩⟩

@[simp] theorem edits_zero : (0 : Change).edits = 0 := rfl

@[simp] theorem gone_zero : (0 : Change).gone = 0 := rfl

@[simp] theorem twice_zero : (0 : Change).twice = 0 := rfl

@[simp] theorem edits_add (a b : Change) : (a + b).edits = a.edits + b.edits := rfl

@[simp] theorem gone_add (a b : Change) : (a + b).gone = a.gone + b.gone := rfl

@[simp] theorem twice_add (a b : Change) : (a + b).twice = a.twice + b.twice := rfl

instance : AddCommMonoid Change where
  zero_add _ := Change.ext (zero_add _) (zero_add _) (zero_add _)
  add_zero _ := Change.ext (add_zero _) (add_zero _) (add_zero _)
  add_assoc _ _ _ := Change.ext (add_assoc ..) (add_assoc ..) (add_assoc ..)
  add_comm _ _ := Change.ext (add_comm ..) (add_comm ..) (add_comm ..)
  nsmul := nsmulRec

end Change

/-- Pieces have an account, and their new words fit behind every word that a name may follow. -/
structure Recast (p : Place) (ps : List Piece) (c : Change) : Prop where
  edits : (edits p ps : Multiset Edit) = c.edits
  fits  : ∀ k : Option Kind, (∀ kind ∈ k, kind.Parts) → Fits k ps
  apart : Apart (olds ps)
  kept  : (comments (news ps) : Multiset String) + c.gone = comments (olds ps) + c.twice

namespace Recast

variable {p : Place} {ps qs : List Piece} {c d : Change}

theorem nil (p : Place) : Recast p [] 0 where
  edits := rfl
  fits _ _ := .nil _
  apart := .of_comments nofun
  kept := rfl

/-- Words that stay have nothing to account for. -/
theorem keep (p : Place) {ws : List Word} (h : Apart ws) : Recast p [.keep ws] 0 where
  edits := rfl
  fits k _ := .single k ws
  apart := by simpa [olds, old] using h
  kept := by simp [old, new]

/-- Accounts of texts in a row add up. -/
theorem append (h : Recast p ps c) (h' : Recast (p.after (textOf (olds ps))) qs d) :
    Recast p (ps ++ qs) (c + d) where
  edits := by
    rw [edits_append, ← Multiset.coe_add, h.edits, h'.edits]
    rfl
  fits k hk := (h.fits k hk).append (h'.fits _ (h.apart k hk))
  apart := by
    rw [olds_append]
    exact h.apart.append h'.apart
  kept := by
    rw [news_append, olds_append, comments_append, comments_append, ← Multiset.coe_add,
      ← Multiset.coe_add, Change.gone_add, Change.twice_add, add_add_add_comm, h.kept, h'.kept,
      add_add_add_comm]

end Recast

-- ── Names in the place of others ─────────────────────────────────────────────────

namespace Token

/-- Behind the same blanks, a name and another text are told apart by no word that stays apart from
    names. -/
theorem Alike.of_nameHead {k : Option Kind} {b xs : List Char} (hk : ∀ kind ∈ k, kind.Parts)
    (hb : b.all Text.isBlank = true) (hx : NameHead xs) (ys : List Char) :
    Alike k (b ++ xs) (b ++ ys) := by
  cases b with
  | nil => exact .inr ⟨hk, hx⟩
  | cons c cs =>
      refine .inl (.of_common (List.cons_ne_nil _ _) (fun hdot => ?_) _ _)
      rw [hdot] at hb
      cases hb

end Token

/-- A name fits in the place of another. -/
theorem Piece.Swaps.name {k : Option Kind} {w : Word} {name name' : String} {rest : List Char}
    (hk : ∀ kind ∈ k, kind.Parts) (hb : w.blank.all Text.isBlank = true) (h : w.Leads rest)
    (hw : w.kind = .ident name) (hname : isPlainName name'.toList = true) (after : List Word) :
    Swaps k [w] [⟨w.blank, name'.toList, .ident name'⟩] after where
  start := ⟨w, [], _, [], rfl, rfl, rfl, by rw [hw]; rfl⟩
  front cs ds := by
    simp only [textOf_cons, textOf_nil, Word.text, List.append_nil, List.append_assoc]
    exact .of_nameHead hk hb ((h.name_form hw).1.append _) _
  reads cs ds ha hr := by
    obtain ⟨hblank, hleads, hafter⟩ := hr
    rw [List.singleton_append, lastKind, hw] at ha
    obtain ⟨hreads, halike⟩ := reads_of_alike hafter ha
    have hends := (hleads.nameEnds hw).of_sameFront (halike.sameFront hleads hw)
    exact ⟨hblank, leads_name _ hname hends, hreads⟩

end FlagSchema
