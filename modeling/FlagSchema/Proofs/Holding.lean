import FlagSchema.Proofs.Places
import FlagSchema.Reading.Reader

/-!
# Streams over a source

A stream keeps comments apart from significant tokens. Listed in the order of the source, both are the
tokens of the words that are left to read.

* **`Stream.listing`**: what is left of a stream, in order.
* **`Stream.Holds`**: a stream holds the words of a source from a place on.
* **`Stream.Holds.next`**, **`Stream.Holds.of_pushComment`**: what is taken from a stream are the first words
  it holds.
-/

namespace FlagSchema

open Token

/-- A token as a stream keeps it: a comment, or a significant token. -/
def Token.entry (t : Token) : Comment ⊕ Token :=
  match t.kind with
  | .comment text => .inl ⟨text, t.position.line⟩
  | _             => .inr t

namespace Token

theorem entry_comment {t : Token} {text : String} (h : t.kind = .comment text) :
    t.entry = .inl ⟨text, t.position.line⟩ := by
  unfold entry
  rw [h]

theorem entry_significant {t : Token} (h : t.kind.isComment = false) : t.entry = .inr t := by
  unfold entry
  split
  · next text hk => rw [hk] at h; cases h
  · rfl

theorem exists_of_isComment {k : Kind} (h : k.isComment = true) : ∃ text, k = .comment text := by
  cases k with
  | comment text => exact ⟨text, rfl⟩
  | _ => cases h

theorem entry_eq_inl {t : Token} {c : Comment} (h : t.entry = .inl c) : t.kind = .comment c.text := by
  cases hk : t.kind.isComment with
  | true =>
      obtain ⟨text, htext⟩ := exists_of_isComment hk
      rw [entry_comment htext, Sum.inl.injEq] at h
      rw [htext, ← h]
  | false => rw [entry_significant hk] at h; cases h

theorem entry_eq_inr {t u : Token} (h : t.entry = .inr u) : t.kind.isComment = false ∧ t = u := by
  cases hk : t.kind.isComment with
  | true =>
      obtain ⟨text, htext⟩ := exists_of_isComment hk
      rw [entry_comment htext] at h
      cases h
  | false =>
      rw [entry_significant hk, Sum.inr.injEq] at h
      exact ⟨rfl, h⟩

theorem significant_eq_filterMap (ts : List Token) :
    significant ts = (ts.map entry).filterMap Sum.getRight? := by
  induction ts with
  | nil => rfl
  | cons t ts ih =>
      rw [List.map_cons, List.filterMap_cons, ← ih]
      cases ht : t.kind.isComment with
      | true =>
          obtain ⟨text, htext⟩ := exists_of_isComment ht
          rw [significant_cons_comment ht, entry_comment htext]
          rfl
      | false =>
          rw [significant_cons ht, entry_significant ht]
          rfl

/-- A cut of what words leave in a stream behind some comments is a cut of the words. -/
theorem placed_of_comments {p : Place} {ws : List Word} {bs : List Comment}
    {rest : List (Comment ⊕ Token)} (h : (placed p ws).map entry = bs.map .inl ++ rest) :
    ∃ cs ws', ws = cs ++ ws' ∧ (∀ c ∈ cs, c.kind.isComment = true) ∧
      comments cs = bs.map Comment.text ∧ (placed (p.after (textOf cs)) ws').map entry = rest := by
  induction bs generalizing p ws with
  | nil => exact ⟨[], ws, rfl, nofun, rfl, h⟩
  | cons b bs ih =>
      cases ws with
      | nil => cases h
      | cons w ws =>
          rw [placed_cons, List.map_cons, List.map_cons, List.cons_append, List.cons.injEq] at h
          have hw : w.kind = .comment b.text := entry_eq_inl h.1
          obtain ⟨cs, ws', rfl, hcs, htexts, hrest⟩ := ih h.2
          refine ⟨w :: cs, ws', rfl, ?_, ?_, ?_⟩
          · intro c hc
            rcases List.mem_cons.mp hc with rfl | hc
            · rw [hw]; rfl
            · exact hcs c hc
          · rw [comments_cons_comment hw, htexts, List.map_cons]
          · rw [textOf_cons, Place.after_append]
            exact hrest

end Token

namespace Stream

/-- What is left of a stream in the order of the source. -/
def listing (s : Stream) : List (Comment ⊕ Token) :=
  s.items.flatMap (fun i => i.before.map .inl ++ [.inr i.token]) ++ s.tail.map .inl

/-- The significant tokens that are left. -/
def tokens (s : Stream) : List Token := s.items.map Item.token

theorem listing_pushComment (c : Comment) (s : Stream) :
    (s.pushComment c).listing = .inl c :: s.listing := by
  obtain ⟨items, tail, held⟩ := s
  cases items with
  | nil => rfl
  | cons i rest => rfl

/-- The stream of tokens lists them. -/
theorem listing_ofTokens (ts : List Token) : (ofTokens ts).listing = ts.map Token.entry := by
  induction ts with
  | nil => rfl
  | cons t ts ih =>
      rw [ofTokens, List.map_cons, ← ih]
      split
      · next text hk => rw [listing_pushComment, Token.entry_comment hk]
      · next hk =>
          have ht : t.kind.isComment = false := by
            cases h : t.kind.isComment with
            | true =>
                obtain ⟨text, htext⟩ := Token.exists_of_isComment h
                exact absurd htext (hk text)
            | false => rfl
          rw [Token.entry_significant ht]
          rfl

theorem tokens_eq_filterMap (s : Stream) : s.tokens = s.listing.filterMap Sum.getRight? := by
  obtain ⟨items, tail, held⟩ := s
  have hinl : ∀ cs : List Comment,
      (cs.map Sum.inl : List (Comment ⊕ Token)).filterMap Sum.getRight? = [] := by
    intro cs
    induction cs with
    | nil => rfl
    | cons c cs ih => rw [List.map_cons, List.filterMap_cons]; exact ih
  show items.map Item.token = _
  rw [listing, List.filterMap_append, hinl, List.append_nil]
  induction items with
  | nil => rfl
  | cons i items ih =>
      rw [List.flatMap_cons, List.filterMap_append, List.filterMap_append, hinl, List.nil_append,
        List.map_cons, ih]
      rfl

theorem tokens_ofTokens (ts : List Token) : (ofTokens ts).tokens = significant ts := by
  rw [tokens_eq_filterMap, listing_ofTokens, significant_eq_filterMap]

theorem size_eq_length_tokens (s : Stream) : s.size = s.tokens.length :=
  (List.length_map ..).symm

/-- A stream holds the words of a source from a place on. -/
structure Holds (source : List Char) (s : Stream) (p : Place) (ws : List Word) : Prop where
  lies    : Lies source p ws
  listing : s.listing = (placed p ws).map Token.entry

namespace Holds

variable {source : List Char} {s : Stream} {p : Place} {ws : List Word}

/-- The significant tokens of a stream are those of its words. -/
theorem tokens (h : s.Holds source p ws) : s.tokens = significant (placed p ws) := by
  rw [tokens_eq_filterMap, h.listing, significant_eq_filterMap]

/-- Comments that are held are no matter. -/
theorem held (h : s.Holds source p ws) (cs : List String) :
    { s with held := cs }.Holds source p ws :=
  ⟨h.lies, h.listing⟩

/-- The next item is the first significant word with the comments in front of it. -/
theorem next {i : Item} {rest : List Item} (h : s.Holds source p ws) (hi : s.items = i :: rest) :
    ∃ cs w ws', ws = cs ++ w :: ws' ∧ (∀ c ∈ cs, c.kind.isComment = true) ∧
      w.kind.isComment = false ∧ i.token = w.token (p.after (textOf cs)) ∧
      comments cs = i.before.map Comment.text ∧
      (s.skipItem i rest).Holds source (p.after (textOf (cs ++ [w]))) ws' := by
  have hlisting := h.listing
  rw [Stream.listing, hi, List.flatMap_cons, List.append_assoc, List.append_assoc] at hlisting
  obtain ⟨cs, vs, rfl, hcs, htexts, hrest⟩ := placed_of_comments hlisting.symm
  cases vs with
  | nil => cases hrest
  | cons w ws' =>
      rw [placed_cons, List.map_cons, List.singleton_append, List.cons.injEq] at hrest
      obtain ⟨hkind, htoken⟩ := entry_eq_inr hrest.1
      refine ⟨cs, w, ws', rfl, hcs, hkind, htoken.symm, htexts, ?_, ?_⟩
      · rw [textOf_append, Place.after_append, textOf_cons, textOf_nil, List.append_nil]
        exact h.lies.right.tail
      · rw [textOf_append, Place.after_append, textOf_cons, textOf_nil, List.append_nil]
        exact hrest.2.symm

/-- Without an item left, the words are comments. -/
theorem comments_of_nil (h : s.Holds source p ws) (hi : s.items = []) :
    ∀ w ∈ ws, w.kind.isComment = true := by
  have hlisting := h.listing
  rw [Stream.listing, hi] at hlisting
  have happ : (placed p ws).map Token.entry = s.tail.map .inl ++ [] := by
    rw [← hlisting, List.append_nil]
    rfl
  obtain ⟨cs, vs, rfl, hcs, -, hrest⟩ := placed_of_comments happ
  cases vs with
  | nil =>
      rw [List.append_nil]
      exact hcs
  | cons v vs => cases hrest

/-- A comment in front of everything left is the first word. -/
theorem of_pushComment {c : Comment} (h : (s.pushComment c).Holds source p ws) :
    ∃ w ws', ws = w :: ws' ∧ w.kind = .comment c.text ∧ s.Holds source (p.after w.text) ws' := by
  have hlisting := h.listing
  rw [listing_pushComment] at hlisting
  cases ws with
  | nil => cases hlisting
  | cons w ws' =>
      rw [placed_cons, List.map_cons, List.cons.injEq] at hlisting
      exact ⟨w, ws', rfl, entry_eq_inl hlisting.1.symm, h.lies.tail, hlisting.2⟩

end Holds

end Stream

end FlagSchema
