import FlagSchema.Lowering.Field
import FlagSchema.Proofs.Numerals
import FlagSchema.Proofs.Recast
import FlagSchema.Proofs.Settings

/-!
# Defaults written anew

A list of options in brackets whose first default is replaced by a number in the text is read as the
options with that number for a default.

* **`Setting.defaultWords`**: a default that is a number.
* **`Setting.Renumbers`**, **`Setting.entries_default`**: entries with such a default in them.
* **`Setting.readBracketed_default`**: the list with such a default in it.
-/

namespace FlagSchema

open Token Reader

namespace Setting

variable {source : List Char} {p : Place}

/-- The words of a default that is a number. -/
def defaultWords (b : List Char) (n : Nat) : List Word :=
  [⟨b, defaultOptionName.toList, .ident defaultOptionName⟩, ⟨[' '], ['='], .symbol '='⟩,
    ⟨[' '], n.repr.toList, .int n.repr⟩]

/-- A default that is a number is read as itself. -/
theorem readEntry_defaultWords (source : List Char) {t : Stream} {d e i : Token} {us : List Token}
    {n : Nat} (ht : t.tokens = d :: e :: i :: us) (hd : d.kind = .ident defaultOptionName)
    (he : e.kind = .symbol '=') (hi : i.kind = .int n.repr) (hn : n < integerLimit) :
    ∃ x t', readEntry source t = .ok (x, t') ∧ t'.tokens = us ∧ x.name = defaultOptionName ∧
      x.value = .int n := by
  have hparen : acceptSymbol '(' t = .ok (false, t) := acceptSymbol_none ht (by rw [hd]; simp)
  obtain ⟨t₁, h1, ht₁⟩ := name_ok .optionName ht hd
  have hbare : readBareName t = .ok (defaultOptionName, t₁) := by
    rw [readBareName, bind_ok hparen]
    exact bind_ok h1
  have hnone : accept subfieldForm t₁ = .ok (none, t₁) := by
    refine accept_eq_none_iff.mpr ⟨?_, rfl⟩
    rw [kindAt?_zero ht₁, he]
    rfl
  have hname : readOptionName t = .ok (defaultOptionName, t₁) := by
    rw [readOptionName, bind_ok hbare, iterate_eq, bind_ok (bind_ok hnone)]
    rfl
  obtain ⟨t₂, h2, ht₂⟩ := symbol_ok ht₁ he
  obtain ⟨t₃, h3, ht₃⟩ := readNumber_ok ht₂ hi (integerValue?_repr hn)
  have hvalue : Constant.read source t₂ = .ok ((.int n, i.span.stop), t₃) :=
    (Constant.read_int source ht₂ hi).trans h3
  obtain ⟨start, hstart⟩ : ∃ start, nextStart t = .ok (start, t) := ⟨_, rfl⟩
  refine ⟨⟨defaultOptionName, .int n, ⟨start, i.span.stop⟩, none⟩, t₃, ?_, ht₃, rfl, rfl⟩
  rw [readEntry, bind_ok hstart, bind_ok hname, bind_ok h2, bind_ok hvalue]
  rfl

-- ── The start of a default ───────────────────────────────────────────────────────

theorem dot_of_subfieldForm {k : Kind} {name : String} (h : subfieldForm k = some name) :
    '.' ∈ name.toList := by
  unfold subfieldForm at h
  split at h
  · split at h
    · next hhead =>
        cases h
        exact List.mem_of_mem_head? hhead
    · cases h
  · cases h

/-- Sub-fields come behind the name that they belong to, each with a dot. -/
theorem prefix_of_subfields {bare name : String} {s s' : Stream}
    (h : iterate subfieldStep proceeds_subfieldStep bare s = .ok (name, s')) :
    bare.toList <+: name.toList ∧ (name = bare ∨ '.' ∈ name.toList) := by
  fun_induction Reader.iterate subfieldStep proceeds_subfieldStep bare s with
  | case1 => cases h
  | case2 b s a s₁ h1 =>
      cases h
      obtain ⟨more, s₂, -, h2⟩ := exists_of_bind h1
      cases more with
      | none => cases h2; exact ⟨List.prefix_rfl, .inl rfl⟩
      | some x => cases h2
  | case3 b s b' s₁ h1 hlt ih =>
      obtain ⟨more, s₂, hmore, h2⟩ := exists_of_bind h1
      cases more with
      | none => cases h2
      | some x =>
          cases h2
          obtain ⟨hfront, hname⟩ := ih h
          rw [String.toList_append] at hfront
          refine ⟨(List.prefix_append ..).trans hfront, .inr ?_⟩
          exact hfront.subset (List.mem_append_right _ (dot_of_subfieldForm (form_of_accept hmore)))

/-- A name that does not start with a parenthesis starts with the name of an option, which is all of it
    if it has no dot. -/
theorem kind_of_readOptionName {s s' : Stream} {name : String} (h : readOptionName s = .ok (name, s'))
    (hname : name.toList.head? ≠ some '(') (hdot : '.' ∉ name.toList) :
    s.kindAt? 0 = some (.ident name) := by
  obtain ⟨bare, s₁, h1, h2⟩ := exists_of_bind h
  obtain ⟨found, s₂, h3, h4⟩ := exists_of_bind h1
  obtain ⟨⟨rest, hrest⟩, hbare⟩ := prefix_of_subfields h2
  cases found with
  | true =>
      obtain ⟨⟨extension, t⟩, s₃, -, h5⟩ := exists_of_bind h4
      obtain ⟨_, s₄, -, h6⟩ := exists_of_bind h5
      cases h6
      refine absurd ?_ hname
      rw [← hrest, String.toList_append, String.toList_append]
      rfl
  | false =>
      obtain ⟨⟨option, t⟩, s₃, h5, h6⟩ := exists_of_bind h4
      cases h6
      obtain rfl := eq_of_acceptSymbol_false h3
      rw [hbare.resolve_right hdot]
      exact (kind_of_name h5).1

-- ── The first default of a list ──────────────────────────────────────────────────

/-- A list without a default. -/
def NoDefault (xs : List Setting) : Prop := ∀ x ∈ xs, x.name ≠ defaultOptionName

theorem withDefault_append {n : UInt64} {xs ys : List Setting} (h : NoDefault xs) :
    withDefault n (xs ++ ys) = xs ++ withDefault n ys := by
  induction xs with
  | nil => rfl
  | cons x xs ih =>
      rw [List.cons_append, withDefault, if_neg (h x (List.mem_cons_self ..)),
        ih fun y hy => h y (List.mem_cons_of_mem _ hy)]
      rfl

theorem withDefault_eq_self {n : UInt64} {xs : List Setting} (h : NoDefault xs) :
    withDefault n xs = xs := by
  have happ : withDefault n (xs ++ []) = xs ++ withDefault n [] := withDefault_append h
  rwa [List.append_nil, withDefault, List.append_nil] at happ

theorem find?_append_of_noDefault {xs ys : List Setting} (h : NoDefault xs) :
    (xs ++ ys).find? (fun s => s.name == defaultOptionName)
      = ys.find? fun s => s.name == defaultOptionName := by
  rw [List.find?_append, List.find?_eq_none.mpr, Option.none_or]
  intro x hx
  simpa using h x hx

/-- A list of entries behind one of them: a comma asks for the next. -/
def behindEntry (source : List Char) (read : List Setting) : Reader (List Setting) := do
  if ← acceptSymbol ',' then
    iterate (entryStep source) (proceeds_entryStep source) read
  else pure read

/-- How a list of entries is read. -/
theorem entries_eq (source : List Char) (read : List Setting) :
    (iterate (entryStep source) (proceeds_entryStep source) read : Reader (List Setting))
      = readEntry source >>= fun x => behindEntry source (read ++ [x]) := by
  rw [iterate_eq, entryStep, bind_assoc]
  congr 1
  funext x
  rw [behindEntry, bind_assoc]
  congr 1
  funext found
  cases found <;> rfl

theorem passes_entries {keeps : Bool} (read : List Setting) : Passes source keeps
    (iterate (entryStep source) (proceeds_entryStep source) read : Reader (List Setting)) :=
  .iterate passes_entryStep read

theorem passes_behindEntry {keeps : Bool} (read : List Setting) :
    Passes source keeps (behindEntry source read) := by
  refine .bind (.acceptSymbol _) fun found => ?_
  split
  · exact passes_entries read
  · exact .pure _

theorem replays_behindEntry {source' : List Char} {q : Place} (xs ys : List Setting) :
    Replays source source' p q 1 (Outcome.value (Extend xs ys)) (behindEntry source xs)
      (behindEntry source' ys) := by
  refine .bind (.acceptSymbol _) (.inl (Nat.le_refl _)) (.acceptSymbol _) (fun found => ?_) ?_
  · split
    · exact passes_entries xs
    · exact .pure _
  · rintro vs found _ rfl
    split
    · exact replays_entries xs ys
    · exact .pure (Extend.refl xs ys)

/-- What follows an entry is nothing, or a comma and more. -/
theorem head_of_behindEntry {s s' : Stream} {vs ws : List Word} {xs zs : List Setting}
    (hs : s.Holds source p (vs ++ ws)) (h : behindEntry source xs s = .ok (zs, s'))
    (hs' : s'.Holds source (p.after (textOf vs)) ws) :
    vs = [] ∨ ∃ cs v us, vs = cs ++ v :: us ∧ (∀ c ∈ cs, c.kind.isComment = true) ∧
      v.kind = .symbol ',' := by
  obtain ⟨found, s₁, h1, h2⟩ := exists_of_bind h
  cases found with
  | false =>
      obtain rfl := eq_of_acceptSymbol_false h1
      cases h2
      exact .inl (hs.eq_nil_of_same hs')
  | true =>
      obtain ⟨cs, v, ws₁, hws, hcs, hv, hs₁⟩ := acceptSymbol_true_inv hs h1
      obtain ⟨us, ws', rfl, hs'', -⟩ := (passes_entries xs : Passes source false _) hs₁ h2
      rw [← List.cons_append, ← List.append_assoc] at hws
      obtain ⟨rfl, rfl⟩ := hs'.cut_unique hs'' hws
      exact .inr ⟨cs, v, us, rfl, hcs, hv⟩

/-- The last of some words is the last of those behind the first ones. -/
theorem concat_of_cons {cs ws us : List Word} {w v : Word} (h : cs ++ w :: ws = us ++ [v]) :
    ∃ xs, w :: ws = xs ++ [v] := by
  rcases List.eq_nil_or_concat (w :: ws) with hnil | ⟨xs, x, hx⟩
  · cases hnil
  · rw [List.concat_eq_append] at hx
    rw [hx, ← List.append_assoc] at h
    obtain ⟨-, hlast⟩ := List.append_inj' h rfl
    exact ⟨xs, by rw [hx, hlast]⟩

/-- An entry whose value is a name ends with one. -/
theorem readEntry_last {s s' : Stream} {V ws : List Word} {x : Setting} {name : String}
    (hs : s.Holds source p (V ++ ws)) (h : readEntry source s = .ok (x, s'))
    (hs' : s'.Holds source (p.after (textOf V)) ws) (hx : x.value = .ident name) :
    ∃ us v, V = us ++ [v] ∧ v.kind = .ident name := by
  obtain ⟨start, s₁, h1, hrest⟩ := exists_of_bind h
  cases h1
  obtain ⟨option, s₂, h2, hrest⟩ := exists_of_bind hrest
  obtain ⟨_, s₃, h3, hrest⟩ := exists_of_bind hrest
  obtain ⟨value, s₄, h4, hrest⟩ := exists_of_bind hrest
  cases hrest
  obtain ⟨V₁, ws₁, hws, hs₂, -⟩ := (passes_readOptionName : Passes source false _) hs h2
  obtain ⟨V₂, ws₂, rfl, hs₃, -⟩ := (Passes.symbol '=' : Passes source false _) hs₂ h3
  obtain ⟨us, v, ws₃, rfl, hv, hs₄⟩ := Constant.last_of_ident hs₃ h4 hx
  rw [← List.append_assoc, ← List.append_assoc] at hws
  obtain ⟨rfl, rfl⟩ := hs'.cut_unique hs₄ hws
  exact ⟨V₁ ++ V₂ ++ us, v, by simp only [List.append_assoc], hv⟩

/-- The words of an entry: comments and the entry itself, which starts with a name if it is a default. -/
theorem readEntry_inv {s s' : Stream} {ws : List Word} {x : Setting} (hs : s.Holds source p ws)
    (h : readEntry source s = .ok (x, s')) :
    ∃ cs w D ws', ws = cs ++ w :: D ++ ws' ∧ (∀ c ∈ cs, c.kind.isComment = true) ∧
      w.kind.isComment = false ∧ s'.Holds source (p.after (textOf (cs ++ w :: D))) ws' ∧
      x.span = spanOf (p.after (textOf cs)) (w :: D) ∧
      (x.name = defaultOptionName → w.kind = .ident defaultOptionName) ∧
      (∀ name, x.value = .ident name → ∃ us v, w :: D = us ++ [v] ∧ v.kind = .ident name) := by
  obtain ⟨V, ws', rfl, hs', -⟩ := (passes_readEntry : Passes source false _) hs h
  obtain ⟨cs, w, D, rfl, hcs, hw⟩ :=
    exists_first (hs.significant_ne_nil hs' rfl (takes_readEntry source h))
  refine ⟨cs, w, D, ws', rfl, hcs, hw, hs', ?_, ?_, ?_⟩
  · rw [span_readEntry hs h hs', spanOf_comments hcs hw]
  · intro hname
    obtain ⟨_, s₁, h1, hrest⟩ := exists_of_bind h
    cases h1
    obtain ⟨name, s₂, h2, hrest⟩ := exists_of_bind hrest
    obtain ⟨_, s₃, -, hrest⟩ := exists_of_bind hrest
    obtain ⟨value, s₄, -, hrest⟩ := exists_of_bind hrest
    cases hrest
    obtain rfl : name = defaultOptionName := hname
    have hoption := kind_of_readOptionName h2 (by decide) (by decide)
    rw [List.append_assoc] at hs
    rw [hs.kindAt?_zero hcs hw] at hoption
    exact Option.some.inj hoption
  · intro name hx
    obtain ⟨us, v, hV, hv⟩ := readEntry_last hs h hs' hx
    obtain ⟨xs, hD⟩ := concat_of_cons hV
    exact ⟨xs, v, hD, hv⟩

-- ── Writing a default ────────────────────────────────────────────────────────────

/-- What an entry may be followed by: comments, then a comma or the closing bracket. -/
def EntryEnds (ws : List Word) : Prop :=
  ∃ cs v us, ws = cs ++ v :: us ∧ (∀ c ∈ cs, c.kind.isComment = true) ∧
    (v.kind = .symbol ',' ∨ v.kind = .symbol ']')

/-- What a number is no part of ends its digits, blanks in front of it or not. -/
theorem digitsEnd_text {w : Word} {c : Char} {xs : List Char} (hb : w.blank.all Text.isBlank = true)
    (hw : w.spelling = c :: xs) (hc : isNameChar c = false ∧ c ≠ '.') (rest : List Char) :
    DigitsEnd (w.text ++ rest) := by
  intro d hd
  cases hblank : w.blank with
  | nil =>
      rw [Word.text, hblank, hw] at hd
      cases hd
      exact hc
  | cons b bs =>
      rw [Word.text, hblank] at hd
      cases hd
      rw [hblank, List.all_cons, Bool.and_eq_true] at hb
      refine ⟨?_, ?_⟩
      · cases hn : isNameChar d with
        | false => rfl
        | true =>
            rw [(graphic_of_isNameChar hn).isBlank_eq_false] at hb
            cases hb.1
      · rintro rfl
        cases hb.1

theorem EntryEnds.digitsEnd {ws : List Word} {rest : List Char} (h : EntryEnds ws)
    (hr : Reads rest ws) : DigitsEnd (textOf ws ++ rest) := by
  obtain ⟨cs, v, us, rfl, hcs, hv⟩ := h
  cases cs with
  | nil =>
      obtain ⟨hb, hl, -⟩ := hr
      rw [List.nil_append, textOf_cons, List.append_assoc]
      rcases hv with hv | hv
      · exact digitsEnd_text hb (hl.symbol_form hv).1 (by decide) _
      · exact digitsEnd_text hb (hl.symbol_form hv).1 (by decide) _
  | cons c cs =>
      obtain ⟨hb, hl, -⟩ := hr
      obtain ⟨text, hc⟩ := exists_of_isComment (hcs c (List.mem_cons_self ..))
      rw [List.cons_append, textOf_cons, List.append_assoc]
      rcases hl.comment_form hc with ⟨xs, hspelling, -⟩ | ⟨xs, hspelling, -⟩
      · exact digitsEnd_text hb hspelling (by decide) _
      · exact digitsEnd_text hb hspelling (by decide) _

/-- A default that is a number fits in the place of an entry that starts with a name. -/
theorem swaps_default {k : Option Kind} {w : Word} {D after : List Word} {name : String} {n : Nat}
    {rest : List Char} (hk : ∀ kind ∈ k, kind.Parts) (hb : w.blank.all Text.isBlank = true)
    (h : w.Leads rest) (hw : w.kind = .ident name) (hafter : EntryEnds after) :
    Piece.Swaps k (w :: D) (defaultWords w.blank n) after where
  start := ⟨w, D, _, _, rfl, rfl, rfl, by rw [hw]; rfl⟩
  front cs ds := by
    rw [defaultWords, textOf_cons, textOf_cons, Word.text, Word.text]
    simp only [List.append_assoc]
    exact .of_nameHead hk hb ((h.name_form hw).1.append _) _
  reads cs ds ha hr := by
    have hreads := (reads_of_alike (reads_append.mp hr).2 (by rw [lastKind_append] at ha; exact ha)).1
    obtain ⟨c, xs, hdigits, hall⟩ := digits_repr n
    have hnumber := leads_digits [' '] hall (hafter.digitsEnd hreads)
    rw [← hdigits, String.ofList_toList] at hnumber
    refine reads_append.mpr ⟨⟨hb, leads_name _ (by decide) ⟨rfl, fun hdot => absurd hdot.1 (by decide)⟩, rfl,
      ?_, rfl, hnumber, trivial⟩, hreads⟩
    exact leads_symbol _ _ (by decide) (by decide) (by decide) (by decide) (by decide)

/-- The tokens of a default that is a number, and what follows it. -/
theorem significant_defaultWords (q : Place) {cs : List Word} (ws : List Word) (b : List Char) (n : Nat)
    (hcs : ∀ c ∈ cs, c.kind.isComment = true) :
    ∃ d e i, significant (placed q (cs ++ defaultWords b n ++ ws)) = d :: e :: i ::
        significant (placed (q.after (textOf (cs ++ defaultWords b n))) ws) ∧
      d.kind = .ident defaultOptionName ∧ e.kind = .symbol '=' ∧ i.kind = .int n.repr := by
  rw [placed_append, placed_append, significant_append, significant_append,
    significant_placed_comments hcs]
  exact ⟨_, _, _, rfl, rfl, rfl, rfl⟩

/-- Where a default stands behind a place: behind words that stay apart from names, from a name on, and
    up to one if its value is one. -/
structure Stands (p : Place) (d : Setting) (A : List Word) (w : Word) (D : List Word) : Prop where
  apart : Apart A
  start : w.kind = .ident defaultOptionName
  span  : d.span = spanOf (p.after (textOf A)) (w :: D)
  last  : ∀ name, d.value = .ident name → ∃ us v, w :: D = us ++ [v] ∧ v.kind = .ident name

/-- Words in front of those in front of a default. -/
theorem Stands.prepend {V A D : List Word} {d : Setting} {w : Word}
    (h : Stands (p.after (textOf V)) d A w D) (hV : Apart (V ++ A)) : Stands p d (V ++ A) w D := by
  refine ⟨hV, h.start, ?_, h.last⟩
  rw [textOf_append, Place.after_append]
  exact h.span

/-- The words of entries behind some others: the first default stands in them, and with a number in its place
    they are read as the entries with that number for a default. -/
def Renumbers (source : List Char) (p : Place) (ws : List Word) (s' : Stream) (d : Setting)
    (xs zs : List Setting) : Prop :=
  ∃ A w D B ws', ws = A ++ w :: D ++ B ++ ws' ∧
    s'.Holds source (p.after (textOf (A ++ w :: D ++ B))) ws' ∧
    Stands p d A w D ∧ (B = [] ∨ ∃ cs v us, B = cs ++ v :: us ∧ (∀ c ∈ cs, c.kind.isComment = true) ∧
      v.kind = .symbol ',') ∧
    ∀ ⦃source' q t us b n ys⦄, Lies source' q (A ++ defaultWords b (UInt64.toNat n) ++ B) →
      t.tokens = significant (placed q (A ++ defaultWords b n.toNat ++ B)) ++ us →
      Ahead 1 s'.tokens us → ys.map bare = xs.map bare →
      ∃ zs' t', iterate (entryStep source') (proceeds_entryStep source') ys t = .ok (zs', t') ∧
        t'.tokens = us ∧ zs'.map bare = (withDefault n zs).map bare

section

variable {s s₁ s₂ s' : Stream} {ws : List Word} {xs zs : List Setting} {x d : Setting}

/-- The next entry is the first default. -/
theorem renumbers_of_default (hs : s.Holds source p ws) (h1 : readEntry source s = .ok (x, s₁))
    (h2 : behindEntry source (xs ++ [x]) s₁ = .ok (zs, s')) (hxs : NoDefault xs)
    (hx : x.name = defaultOptionName) (hd : zs.find? (fun s => s.name == defaultOptionName) = some d) :
    Renumbers source p ws s' d xs zs := by
  obtain ⟨cs, w, D, ws₁, rfl, hcs, hw, hs₁, hspan, hident, hlast⟩ := readEntry_inv hs h1
  obtain ⟨B, ws', rfl, hs', -⟩ := (passes_behindEntry _ : Passes source false _) hs₁ h2
  obtain ⟨more, -, rfl, -, -⟩ := (replays_behindEntry (xs ++ [x]) (xs ++ [x])).self hs₁ h2 hs'
  obtain rfl : x = d := by
    rw [List.append_assoc, find?_append_of_noDefault hxs, List.singleton_append,
      List.find?_cons_of_pos (by simp [hx])] at hd
    exact Option.some.inj hd
  refine ⟨cs, w, D, B, ws', by rw [← List.append_assoc], ?_, ⟨.of_comments hcs, hident hx, hspan, hlast⟩,
    head_of_behindEntry hs₁ h2 hs', ?_⟩
  · rw [textOf_append, Place.after_append]
    exact hs'
  · intro source' q t us b n ys hq ht hahead hys
    obtain ⟨d', e', i', htokens, hd', he', hi'⟩ := significant_defaultWords q B b n.toNat hcs
    rw [htokens] at ht
    have hn : n.toNat < integerLimit := Nat.lt_trans n.toNat_lt (by decide)
    obtain ⟨y, t₁, hy, ht₁, hyname, hyvalue⟩ := readEntry_defaultWords source' ht hd' he' hi' hn
    obtain ⟨zs', t', hzs', ht', more₁, more', hmore₁, rfl, hmore⟩ :=
      replays_behindEntry (xs ++ [x]) (ys ++ [y]) hs₁ h2 hs' hq.right ht₁ hahead
    obtain rfl := List.append_cancel_left hmore₁
    refine ⟨ys ++ [y] ++ more', t', ?_, ht', ?_⟩
    · rw [entries_eq, bind_ok hy]
      exact hzs'
    · have hentry : y.bare = Setting.bare { x with value := .int n.toNat } :=
        bare_eq_iff.mpr ⟨hyname.trans hx.symm, hyvalue⟩
      rw [List.append_assoc, List.append_assoc, withDefault_append hxs, List.singleton_append,
        List.singleton_append, withDefault, if_pos hx]
      simp only [List.map_append, List.map_cons, hys, hmore, hentry]

/-- The first default is behind the next entry and a comma. -/
theorem renumbers_of_comma (hs : s.Holds source p ws) (h1 : readEntry source s = .ok (x, s₁))
    (h2 : acceptSymbol ',' s₁ = .ok (true, s₂))
    (hmore : ∀ p ws, s₂.Holds source p ws → Renumbers source p ws s' d (xs ++ [x]) zs) :
    Renumbers source p ws s' d xs zs := by
  obtain ⟨cs, w, D, ws₁, rfl, hcs, hw, hs₁, -⟩ := readEntry_inv hs h1
  obtain ⟨ds, v, ws₂, rfl, hds, hv, hs₂⟩ := acceptSymbol_true_inv hs₁ h2
  obtain ⟨A, w', D', B, ws', rfl, hs', hstands, hB, hagain⟩ := hmore _ _ hs₂
  have hv' : v.kind.isComment = false := by rw [hv]; rfl
  have hparts : v.kind.Parts := .inr ⟨',', hv, by decide, by decide⟩
  refine ⟨cs ++ w :: D ++ (ds ++ [v]) ++ A, w', D', B, ws', ?_, ?_, ⟨?_, hstands.start, ?_, hstands.last⟩, hB,
    ?_⟩
  · simp only [List.append_assoc, List.cons_append, List.nil_append]
  · simpa only [textOf_append, Place.after_append, List.append_assoc] using hs'
  · rw [← List.append_assoc]
    exact .append (.concat _ hparts) hstands.apart
  · simpa only [textOf_append, Place.after_append, List.append_assoc] using hstands.span
  · intro source' q t us b n ys hq ht hahead hys
    have hwords : cs ++ w :: D ++ (ds ++ [v]) ++ A ++ defaultWords b n.toNat ++ B
        = cs ++ w :: D ++ (ds ++ v :: (A ++ defaultWords b n.toNat ++ B)) := by
      simp only [List.append_assoc, List.cons_append, List.nil_append]
    rw [hwords] at hq ht
    rw [placed_append, significant_append, List.append_assoc] at ht
    have hcomma := hs₁.tokens
    rw [significant_placed_cons hds hv'] at hcomma
    rw [significant_placed_cons hds hv', List.cons_append] at ht
    obtain ⟨y, t₁, hy, ht₁, hxy⟩ := replays_readEntry hs h1 hs₁ hq.left ht
      (by rw [hcomma]; exact Ahead.cons rfl _ _)
    obtain ⟨t₂, hcomma₂, ht₂⟩ := acceptSymbol_ok ht₁ hv
    have hys' : (ys ++ [y]).map bare = (xs ++ [x]).map bare := by
      rw [List.map_append, List.map_append, hys, List.map_singleton, List.map_singleton, hxy]
    have hq₂ := hq.right
    rw [← List.singleton_append (x := v), ← List.append_assoc] at hq₂
    obtain ⟨zs', t', hzs', ht', hbare⟩ := hagain hq₂.right ht₂ hahead hys'
    refine ⟨zs', t', ?_, ht', hbare⟩
    rw [entries_eq, bind_ok hy]
    exact (bind_ok hcomma₂).trans hzs'

theorem NoDefault.concat (hxs : NoDefault xs) (hx : x.name ≠ defaultOptionName) : NoDefault (xs ++ [x]) := by
  intro y hy
  rcases List.mem_append.mp hy with hy | hy
  · exact hxs y hy
  · rw [List.mem_singleton.mp hy]
    exact hx

/-- **A list of entries is read with a number for its first default**, if the text has one there. -/
theorem entries_default (hs : s.Holds source p ws)
    (h : iterate (entryStep source) (proceeds_entryStep source) xs s = .ok (zs, s'))
    (hxs : NoDefault xs) (hd : zs.find? (fun s => s.name == defaultOptionName) = some d) :
    Renumbers source p ws s' d xs zs := by
  induction hsize : s.size using Nat.strongRecOn generalizing s p ws xs with
  | ind size ih =>
  rw [entries_eq] at h
  obtain ⟨x, s₁, h1, h2⟩ := exists_of_bind h
  by_cases hx : x.name = defaultOptionName
  · exact renumbers_of_default hs h1 h2 hxs hx hd
  · obtain ⟨found, s₂, h3, h4⟩ := exists_of_bind h2
    cases found with
    | false =>
        cases h4
        rw [← List.append_nil (xs ++ [x]), find?_append_of_noDefault (hxs.concat hx)] at hd
        cases hd
    | true =>
        have hsize₂ : s₂.size < size := by
          have := takes_readEntry source h1
          have := Takes.acceptSymbol ',' h3
          omega
        exact renumbers_of_comma hs h1 h3 fun p ws hs₂ =>
          ih s₂.size hsize₂ hs₂ h4 (hxs.concat hx) rfl

end

/-- **A list in brackets is read with a number for its first default**, if the text has one there. -/
theorem readBracketed_default {s s' : Stream} {ws : List Word} {x : List Setting × Option Span}
    {d : Setting} (hs : s.Holds source p ws) (h : readBracketed source s = .ok (x, s'))
    (hd : x.1.find? (fun s => s.name == defaultOptionName) = some d) :
    ∃ A w D B ws', ws = A ++ w :: D ++ B ++ ws' ∧
      s'.Holds source (p.after (textOf (A ++ w :: D ++ B))) ws' ∧
      Stands p d A w D ∧ (∀ V, Apart (V ++ A)) ∧ EntryEnds B ∧
      ∀ ⦃source' q t us b n⦄, Lies source' q (A ++ defaultWords b (UInt64.toNat n) ++ B) →
        t.tokens = significant (placed q (A ++ defaultWords b n.toNat ++ B)) ++ us →
        ∃ y t', readBracketed source' t = .ok (y, t') ∧ t'.tokens = us ∧
          y.1.map bare = (withDefault n x.1).map bare := by
  obtain ⟨found, s₁, h1, h2⟩ := exists_of_bind h
  cases found with
  | none => cases h2; cases hd
  | some opening =>
      obtain ⟨zs, s₂, h3, h4⟩ := exists_of_bind h2
      obtain ⟨closing, s₃, h4, hx⟩ := exists_of_bind h4
      cases hx
      obtain ⟨cs, v, ws₁, rfl, hcs, hv, hform, -, -, hs₁⟩ := accept_some_inv hs h1
      have hopen := kind_of_symbolForm hform
      obtain ⟨A, w, D, B, ws₂, rfl, hs₂, hstands, hB, hagain⟩ :=
        entries_default hs₁ h3 nofun hd
      obtain ⟨vs, ws', rfl, hs', -, hclosing, htaken⟩ := (Replays.symbol _).inv (.symbol _) hs₂ h4
      obtain ⟨ds, v', rfl, hds, hv', rfl, -⟩ := htaken
      refine ⟨cs ++ [v] ++ A, w, D, B ++ (ds ++ [v']), ws', ?_, ?_, ⟨?_, hstands.start, ?_, hstands.last⟩, ?_, ?_, ?_⟩
      · simp only [List.append_assoc, List.cons_append, List.nil_append]
      · simpa only [textOf_append, Place.after_append, List.append_assoc] using hs'
      · exact .append (.concat _ (.inr ⟨'[', hopen, by decide, by decide⟩)) hstands.apart
      · simpa only [textOf_append, Place.after_append] using hstands.span
      · intro V
        rw [← List.append_assoc, ← List.append_assoc]
        exact .append (.concat _ (.inr ⟨'[', hopen, by decide, by decide⟩)) hstands.apart
      · rcases hB with rfl | ⟨cs', u, us, rfl, hcs', hu⟩
        · exact ⟨ds, v', [], rfl, hds, .inr hclosing⟩
        · refine ⟨cs', u, us ++ (ds ++ [v']), ?_, hcs', .inl hu⟩
          rw [List.append_assoc, List.cons_append]
      · intro source' q t us b n hq ht
        have hwords : cs ++ [v] ++ A ++ defaultWords b n.toNat ++ (B ++ (ds ++ [v']))
            = cs ++ v :: (A ++ defaultWords b n.toNat ++ B ++ (ds ++ [v'])) := by
          simp only [List.append_assoc, List.cons_append, List.nil_append]
        have hwords' : cs ++ v :: (A ++ defaultWords b n.toNat ++ B ++ (ds ++ [v']))
            = cs ++ [v] ++ (A ++ defaultWords b n.toNat ++ B) ++ (ds ++ [v']) := by
          simp only [List.append_assoc, List.cons_append, List.nil_append]
        rw [hwords, hwords'] at hq
        rw [hwords, significant_placed_cons hcs hv, List.cons_append, placed_append, significant_append,
          List.append_assoc, significant_placed_cons hds hv'] at ht
        obtain ⟨t₁, hopened, ht₁⟩ := accept_ok ht hform
        have hrest : ds ++ [v'] ++ ws' = ds ++ v' :: ws' := by
          rw [List.append_assoc, List.singleton_append]
        have hahead := hs₂.tokens
        rw [hrest, significant_placed_cons hds hv'] at hahead
        obtain ⟨zs', t₂, hzs', ht₂, hbare⟩ := hagain hq.left.right ht₁
          (by rw [hahead]; exact Ahead.cons rfl _ _) rfl
        obtain ⟨t₃, hclosed, ht₃⟩ := symbol_ok ht₂ hclosing
        have hread : readBracketed source' t = _ :=
          (bind_ok hopened).trans ((bind_ok hzs').trans (bind_ok hclosed))
        exact ⟨_, t₃, hread, ht₃, hbare⟩

end Setting

end FlagSchema
