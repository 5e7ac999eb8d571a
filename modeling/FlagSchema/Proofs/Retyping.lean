import FlagSchema.Proofs.Fields
import FlagSchema.Proofs.Rereading

/-!
# Retyped fields

A field whose type and default are replaced in the text is read as the retyped field. Nothing else about
it changes, and the replaced words are exactly those that its edits name.

* **`Field.Retypes`**, **`Field.recast_type`**: a type on words with another type in its place.
* **`Field.Renumbers`**, **`Field.recast_finish`**: the end of a field on words with a number for its default.
* **`Field.retypeChange`**: the account of a retyped field.
* **`Field.recast_read`**: a field on words with another type and another default.
-/

namespace FlagSchema

open Token Reader Piece

variable {source : List Char} {p : Place}

-- ── Keywords of types ────────────────────────────────────────────────────────────

namespace Scalar

theorem isPlainName_keyword (s : Scalar) : isPlainName s.keyword.toList = true := by
  cases s <;> decide

theorem ofName?_keyword (s : Scalar) : Label.ofName? s.keyword = none := by
  cases s <;> decide

theorem keyword_ne (s : Scalar) : s.keyword ≠ "group" ∧ s.keyword ≠ "map" := by
  cases s <;> decide

theorem ofName_keyword (s : Scalar) : TypeRef.ofName s.keyword = .scalar s := by
  rw [TypeRef.ofName, ofKeyword?_keyword]

end Scalar

/-- The word of a storage type, behind given blanks. -/
def Scalar.word (b : List Char) (s : Scalar) : Word := ⟨b, s.keyword.toList, .ident s.keyword⟩

namespace Field

-- ── The type ─────────────────────────────────────────────────────────────────────

/-- A label and a type are read with another name for the type. -/
theorem readHead_inv {inOneof : Bool} {s s' : Stream} {ws : List Word} {label : Label} {name : String}
    {token : Token} (hs : s.Holds source p ws)
    (h : readHead inOneof s = .ok ((label, name, token), s')) :
    ∃ H T ws', ws = H ++ T :: ws' ∧ Apart H ∧ T.kind = .ident name ∧
      token = T.token (p.after (textOf H)) ∧
      s'.Holds source (p.after (textOf (H ++ [T]))) ws' ∧
      ∀ ⦃q t us⦄ (width : Scalar),
        t.tokens = significant (placed q (H ++ [width.word T.blank])) ++ us → Ahead 1 s'.tokens us →
        ∃ token' t', readHead inOneof t = .ok ((label, width.keyword, token'), t') ∧ t'.tokens = us := by
  obtain ⟨⟨first, t₁⟩, s₁, h1, h2⟩ := exists_of_bind h
  obtain ⟨cs, w, ws₁, rfl, hcs, hw, ht₁, -, hs₁⟩ := name_inv hs h1
  have hfirst : ∀ {q : Place} {t : Stream} {us : List Token} (width : Scalar),
      t.tokens = significant (placed q (cs ++ [width.word w.blank])) ++ us →
      ∃ token' t', readHead inOneof t = .ok ((.singular, width.keyword, token'), t') ∧
        t'.tokens = us := by
    intro q t us width ht
    rw [significant_placed_cons hcs rfl] at ht
    obtain ⟨t', hname, ht'⟩ := name_ok .fieldType ht rfl
    have hread : readHead inOneof t = _ := bind_ok hname
    simp only [Scalar.ofName?_keyword] at hread
    exact ⟨_, t', hread, ht'⟩
  cases hlabel : Label.ofName? first with
  | none =>
      simp only [hlabel] at h2
      cases h2
      exact ⟨cs, w, ws₁, rfl, .of_comments hcs, hw, ht₁, hs₁, fun _ _ _ width ht _ => hfirst width ht⟩
  | some label' =>
      simp only [hlabel] at h2
      obtain ⟨isType, s₂, h3, h4⟩ := exists_of_bind h2
      obtain ⟨hisType, rfl⟩ : s₁.symbolAt 1 '=' = isType ∧ s₁ = s₂ := by cases h3; exact ⟨rfl, rfl⟩
      split at h4
      · cases h4
        exact ⟨cs, w, ws₁, rfl, .of_comments hcs, hw, ht₁, hs₁, fun _ _ _ width ht _ => hfirst width ht⟩
      · next hlabelled =>
          obtain ⟨⟨type, t₂⟩, s₃, h5, h6⟩ := exists_of_bind h4
          cases h6
          obtain ⟨ds, T, ws₂, rfl, hds, hT, hT', -, hs₃⟩ := name_inv hs₁ h5
          have hw' : w.kind.isComment = false := by rw [hw]; rfl
          have hcut : cs ++ w :: (ds ++ T :: ws₂) = cs ++ [w] ++ ds ++ T :: ws₂ := by
            simp only [List.append_assoc, List.cons_append, List.nil_append]
          refine ⟨cs ++ [w] ++ ds, T, ws₂, hcut, ?_, hT, ?_, ?_, ?_⟩
          · exact .append (.concat _ (.inl ⟨_, hw⟩)) (.of_comments hds)
          · rw [hT']
            simp only [textOf_append, Place.after_append]
          · simpa only [textOf_append, Place.after_append, List.append_assoc] using hs₃
          · intro q t us width ht hahead
            have hwords : cs ++ [w] ++ ds ++ [width.word T.blank] = cs ++ w :: (ds ++ [width.word T.blank]) := by
              simp only [List.append_assoc, List.cons_append, List.nil_append]
            rw [hwords, significant_placed_cons hcs hw', significant_placed_cons hds rfl] at ht
            obtain ⟨t₁, hname, ht₁⟩ := name_ok .fieldType ht hw
            obtain ⟨t₂, htype, ht₂⟩ := name_ok .fieldType ht₁ rfl
            have hT₂ : T.kind.isComment = false := by rw [hT]; rfl
            rw [← List.singleton_append (x := T), ← List.append_assoc] at hs₁
            have htokens := hs₁.tokens_cut hs₃ rfl
            rw [significant_placed_cons hds hT₂] at htokens
            -- What stands behind the type tells whether the label is the type.
            have hsame : t₁.symbolAt 1 '=' = isType := by
              have hnext := hahead.getElem? Nat.zero_lt_one
              rw [← hisType, Stream.symbolAt, Stream.symbolAt, Stream.kindAt?_eq, Stream.kindAt?_eq,
                htokens, ht₁]
              show ((us[0]?).map Token.kind == _) = ((s'.tokens[0]?).map Token.kind == _)
              rw [hnext]
            have hahead₁ : symbolAhead 1 '=' t₁ = .ok (isType, t₁) := by rw [symbolAhead, hsame]
            have hread : readHead inOneof t = _ := bind_ok hname
            simp only [hlabel] at hread
            rw [bind_ok hahead₁, if_neg hlabelled, bind_ok htype] at hread
            exact ⟨_, t₂, hread, ht₂⟩

/-- A map type is read with another type of its values. -/
theorem readMap_inv {s s' : Stream} {ws : List Word} {y : FieldType × Span} (hs : s.Holds source p ws)
    (h : readMap s = .ok (y, s')) :
    ∃ M V N ws', ws = M ++ V :: N ++ ws' ∧ Apart M ∧ Apart N ∧
      (∃ name, V.kind = .ident name ∧ y.1.target = .ofName name) ∧
      y.2 = (V.token (p.after (textOf M))).span ∧ 2 ≤ (significant (placed p M)).length ∧
      s'.Holds source (p.after (textOf (M ++ V :: N))) ws' ∧
      ∀ ⦃q t us⦄ (width : Scalar),
        t.tokens = significant (placed q (M ++ width.word V.blank :: N)) ++ us →
        (∃ t' us', t.tokens = t' :: us' ∧ t'.kind = .symbol '<') ∧
        ∃ y' t', readMap t = .ok (y', t') ∧ t'.tokens = us ∧
          y'.1 = y.1.withTarget (.scalar width) := by
  obtain ⟨t₁, s₁, h1, h⟩ := exists_of_bind h
  obtain ⟨cs₁, w₁, ws₁, rfl, hcs₁, hw₁, -, -, hs₁⟩ := symbol_inv hs h1
  obtain ⟨⟨key, t₂⟩, s₂, h2, h⟩ := exists_of_bind h
  obtain ⟨cs₂, w₂, ws₂, rfl, hcs₂, hw₂, -, -, hs₂⟩ := name_inv hs₁ h2
  cases hkey : Scalar.ofKeyword? key with
  | none => simp only [hkey] at h; cases h
  | some key' =>
      simp only [hkey] at h
      obtain ⟨t₃, s₃, h3, h⟩ := exists_of_bind h
      obtain ⟨cs₃, w₃, ws₃, rfl, hcs₃, hw₃, -, -, hs₃⟩ := symbol_inv hs₂ h3
      obtain ⟨⟨value, t₄⟩, s₄, h4, h⟩ := exists_of_bind h
      obtain ⟨cs₄, V, ws₄, rfl, hcs₄, hV, ht₄, -, hs₄⟩ := name_inv hs₃ h4
      obtain ⟨t₅, s₅, h5, h⟩ := exists_of_bind h
      obtain ⟨cs₅, w₅, ws₅, rfl, hcs₅, hw₅, -, -, hs₅⟩ := symbol_inv hs₄ h5
      cases h
      have hk₁ : w₁.kind.isComment = false := by rw [hw₁]; rfl
      have hk₂ : w₂.kind.isComment = false := by rw [hw₂]; rfl
      have hk₃ : w₃.kind.isComment = false := by rw [hw₃]; rfl
      have hk₅ : w₅.kind.isComment = false := by rw [hw₅]; rfl
      refine ⟨cs₁ ++ w₁ :: (cs₂ ++ w₂ :: (cs₃ ++ w₃ :: cs₄)), V, cs₅ ++ [w₅], ws₅, ?_, ?_, ?_,
        ⟨_, hV, rfl⟩, ?_, ?_, ?_, ?_⟩
      · simp only [List.append_assoc, List.cons_append, List.nil_append]
      · have happart : Apart (cs₁ ++ w₁ :: (cs₂ ++ w₂ :: cs₃) ++ [w₃] ++ cs₄) :=
          .append (.concat _ (.inr ⟨',', hw₃, by decide, by decide⟩)) (.of_comments hcs₄)
        simpa only [List.append_assoc, List.cons_append, List.nil_append] using happart
      · exact .concat _ (.inr ⟨'>', hw₅, by decide, by decide⟩)
      · show t₄.span = _
        rw [show t₄ = _ from ht₄]
        simp only [textOf_append, textOf_cons, textOf_nil, List.append_nil, Place.after_append]
      · rw [significant_placed_cons hcs₁ hk₁, significant_placed_cons hcs₂ hk₂]
        exact Nat.le_add_left _ _
      · simpa only [textOf_append, textOf_cons, textOf_nil, List.append_nil, Place.after_append] using hs₅
      · intro q t us width ht
        have hwords : cs₁ ++ w₁ :: (cs₂ ++ w₂ :: (cs₃ ++ w₃ :: cs₄)) ++
            width.word V.blank :: (cs₅ ++ [w₅]) = cs₁ ++ w₁ :: (cs₂ ++ w₂ :: (cs₃ ++ w₃ ::
              (cs₄ ++ width.word V.blank :: (cs₅ ++ [w₅])))) := by
          simp only [List.append_assoc, List.cons_append]
        rw [hwords, significant_placed_cons hcs₁ hk₁, significant_placed_cons hcs₂ hk₂,
          significant_placed_cons hcs₃ hk₃, significant_placed_cons hcs₄ rfl,
          significant_placed_cons hcs₅ hk₅] at ht
        refine ⟨⟨_, _, ht, hw₁⟩, ?_⟩
        obtain ⟨t₁, h1, ht₁⟩ := symbol_ok ht hw₁
        obtain ⟨t₂, h2, ht₂⟩ := name_ok .mapKeyType ht₁ hw₂
        obtain ⟨t₃, h3, ht₃⟩ := symbol_ok ht₂ hw₃
        obtain ⟨t₄, h4, ht₄⟩ := name_ok .mapValueType ht₃ rfl
        obtain ⟨t₅, h5, ht₅⟩ := symbol_ok ht₄ hw₅
        have hread : readMap t = _ := (bind_ok h1).trans (bind_ok h2)
        simp only [hkey] at hread
        rw [bind_ok h3, bind_ok h4, bind_ok h5] at hread
        refine ⟨_, t₅, hread, ht₅, ?_⟩
        rw [Scalar.ofName_keyword]
        rfl

/-- The account of a name in the place of another. -/
theorem recast_name {H N : List Word} {T : Word} {name : String} (h : Lies source p (H ++ T :: N))
    (hH : Apart H) (hN : Apart N) (hT : T.kind = .ident name) (width : Scalar) :
    Recast p [.keep H, .swap [T] [width.word T.blank], .keep N]
      { edits := {⟨(T.token (p.after (textOf H))).span, width.keyword⟩} } where
  edits := by
    have hT' : T.kind.isComment = false := by rw [hT]; rfl
    have hspan : spanOf (p.after (textOf H)) [T] = (T.token (p.after (textOf H))).span := by
      rw [spanOf, startOf_cons hT', textOf_cons, textOf_nil, List.append_nil]
      rfl
    have htext : String.ofList (core [width.word T.blank]) = width.keyword := by
      rw [core, textOf_nil, List.append_nil]
      exact String.ofList_toList
    rw [Piece.edits, Piece.edits, Piece.edits, Piece.edits, hspan, htext]
    rfl
  fits k hk := by
    obtain ⟨before, after, -, -, hreads⟩ := h
    obtain ⟨-, hb, hl, -⟩ := reads_append.mp hreads
    exact .keep (.swap (.name (hH k hk) hb hl hT width.isPlainName_keyword N) (.nil _))
  apart := by
    have hT' : T.kind.isComment = false := by rw [hT]; rfl
    have happart : Apart ([T] ++ N) := .append (.concat [] (.inl ⟨_, hT⟩)) hN
    simpa [old] using hH.append happart
  kept := by
    have hT' : T.kind.isComment = false := by rw [hT]; rfl
    have hnew : (width.word T.blank).kind.isComment = false := rfl
    simp [old, new, comments_cons hT', comments_cons hnew]

/-- The words of a type can be changed so that it is read with a storage type in its place: the type itself,
    or that of the values of a map. -/
def Retypes (source : List Char) (p : Place) (ws : List Word) (s' : Stream) (inOneof : Bool) (label : Label)
    (y : FieldType × Span) (width : Scalar) : Prop :=
  ∃ ps ws', ws = olds ps ++ ws' ∧ s'.Holds source (p.after (textOf (olds ps))) ws' ∧
    Recast p ps { edits := {⟨y.2, width.keyword⟩} } ∧
    ∀ ⦃source' q t us⦄, Lies source' q (news ps) →
      t.tokens = significant (placed q (news ps)) ++ us → Ahead 1 s'.tokens us →
      ∃ x' t₁ y' t₂, readHead inOneof t = .ok (x', t₁) ∧ readType x'.2.1 x'.2.2 t₁ = .ok (y', t₂) ∧
        t₂.tokens = us ∧ x'.1 = label ∧ y'.1 = y.1.withTarget (.scalar width)

section

variable {inOneof : Bool} {s s₁ s₂ : Stream} {ws : List Word} {label : Label} {name : String} {token : Token}
  {y : FieldType × Span}

/-- A map is read with another type of its values. -/
theorem retypes_of_map (hs : s.Holds source p ws) (h1 : readHead inOneof s = .ok ((label, name, token), s₁))
    (hname : name = "map") (h2 : readMap s₁ = .ok (y, s₂)) (width : Scalar) :
    Retypes source p ws s₂ inOneof label y width := by
  obtain ⟨H, T, ws₁, rfl, hH, hT, rfl, hs₁, -⟩ := readHead_inv hs h1
  have hgroup : name ≠ "group" := by rw [hname]; decide
  obtain ⟨M, V, N, ws₂, rfl, hM, hN, ⟨value, hV, -⟩, hspan, hlen, hs₂, hagain₂⟩ :=
    readMap_inv hs₁ h2
  have hT' : T.kind.isComment = false := by rw [hT]; rfl
  have hs' := hs
  rw [← List.singleton_append (x := T), ← List.append_assoc] at hs'
  have hcut : H ++ T :: (M ++ V :: N ++ ws₂) = H ++ [T] ++ M ++ V :: N ++ ws₂ := by
    simp only [List.append_assoc, List.cons_append, List.nil_append]
  have hlies := hs.lies
  rw [hcut] at hlies
  have happart : Apart (H ++ [T] ++ M) := .append (.concat H (.inl ⟨_, hT⟩)) hM
  have hrecast := recast_name hlies.left happart hN hV width
  rw [textOf_append, Place.after_append, ← hspan] at hrecast
  refine ⟨_, ws₂, ?_, ?_, hrecast, ?_⟩
  · simp [old]
  · simpa [old, Place.after_append] using hs₂
  · intro source' q t us hq ht hahead
    have hnews : news [.keep (H ++ [T] ++ M), .swap [V] [width.word V.blank], .keep N]
        = H ++ [T] ++ (M ++ width.word V.blank :: N) := by
      simp [new]
    rw [hnews] at hq ht
    rw [placed_append, significant_append, List.append_assoc] at ht
    have htokens := hs₁.tokens_cut hs₂ rfl
    have hahead₁ : Ahead 2 s₁.tokens (significant
        (placed (q.after (textOf (H ++ [T]))) (M ++ width.word V.blank :: N)) ++ us) := by
      rw [htokens, placed_append, significant_append, List.append_assoc, placed_append,
        significant_append, List.append_assoc]
      refine (Ahead.zero ..).append (kinds_significant_placed ..) ?_
      rw [Nat.zero_add]
      exact hlen
    obtain ⟨⟨label', name', token'⟩, t₁, hread, ht₁, rfl, rfl⟩ :=
      replays_readHead inOneof hs' h1 hs₁ hq.left ht hahead₁
    obtain ⟨⟨t₀, us₀, hlt, hkind⟩, y', t₂, hread₂, ht₂, hy⟩ := hagain₂ width ht₁
    have htype : readType name token' t₁ = .ok (y', t₂) := by
      have hahead₀ : symbolAhead 0 '<' t₁ = .ok (t₁.symbolAt 0 '<', t₁) := rfl
      have hmap' : t₁.symbolAt 0 '<' = true := by
        rw [Stream.symbolAt, kindAt?_zero hlt, hkind]
        rfl
      rw [readType, if_neg hgroup, bind_ok hahead₀, if_pos ⟨hname, hmap'⟩]
      exact hread₂
    exact ⟨_, t₁, y', t₂, hread, htype, ht₂, rfl, hy⟩

/-- A type that is a name is read with another name. -/
theorem retypes_of_name (hs : s.Holds source p ws) (h1 : readHead inOneof s = .ok ((label, name, token), s₁))
    (width : Scalar) :
    Retypes source p ws s₁ inOneof label (.single (.ofName name), token.span) width := by
  obtain ⟨H, T, ws₁, rfl, hH, hT, rfl, hs₁, hagain⟩ := readHead_inv hs h1
  have hlies : Lies source p (H ++ T :: []) := by
    have hlies := hs.lies
    rw [← List.singleton_append (x := T), ← List.append_assoc] at hlies
    exact hlies.left
  refine ⟨_, ws₁, ?_, ?_, recast_name hlies hH (.of_comments (List.forall_mem_nil _)) hT width, ?_⟩
  · simp [old]
  · simpa [old] using hs₁
  · intro source' q t us _ ht hahead
    simp only [news_cons, news_nil, new, List.append_nil] at ht
    obtain ⟨token', t₁, hread, ht₁⟩ := hagain width ht hahead
    have htype : readType width.keyword token' t₁ = .ok ((.single (.scalar width), token'.span), t₁) := by
      rw [readType, if_neg width.keyword_ne.1]
      have hahead : symbolAhead 0 '<' t₁ = .ok (t₁.symbolAt 0 '<', t₁) := rfl
      rw [bind_ok hahead, if_neg (fun h => width.keyword_ne.2 h.1), Scalar.ofName_keyword]
      rfl
    exact ⟨_, t₁, _, t₁, hread, htype, ht₁, rfl, rfl⟩

end

/-- **A type is read with another name in its place.** -/
theorem recast_type {inOneof : Bool} {s s₁ s₂ : Stream} {ws : List Word} {x : Label × String × Token}
    {y : FieldType × Span} (hs : s.Holds source p ws) (h1 : readHead inOneof s = .ok (x, s₁))
    (h2 : readType x.2.1 x.2.2 s₁ = .ok (y, s₂)) (width : Scalar) :
    Retypes source p ws s₂ inOneof x.1 y width := by
  obtain ⟨label, name, token⟩ := x
  unfold readType at h2
  split at h2
  · cases h2
  · obtain ⟨isMap, s₃, h3, h4⟩ := exists_of_bind h2
    obtain ⟨-, rfl⟩ : s₁.symbolAt 0 '<' = isMap ∧ s₁ = s₃ := by cases h3; exact ⟨rfl, rfl⟩
    split at h4
    · next hmap => exact retypes_of_map hs h1 hmap.1 h4 width
    · cases h4
      exact retypes_of_name hs h1 width

/-- The span of a type holds the name that was read. -/
theorem slice_readType {inOneof : Bool} {s s₁ s₂ : Stream} {ws : List Word} {x : Label × String × Token}
    {y : FieldType × Span} (hs : s.Holds source p ws) (h1 : readHead inOneof s = .ok (x, s₁))
    (h2 : readType x.2.1 x.2.2 s₁ = .ok (y, s₂)) :
    ∃ name, y.1.target = .ofName name ∧ Text.slice source y.2 = name.toList := by
  have hname : ∀ {p ws H N} {T : Word} {name : String}, Lies source p ws → ws = H ++ T :: N →
      T.kind = .ident name → Text.slice source (T.token (p.after (textOf H))).span = name.toList := by
    rintro p _ H N T name hlies rfl hT
    rw [hlies.slice_token]
    obtain ⟨before, after, -, -, hreads⟩ := hlies
    obtain ⟨-, -, hleads, -⟩ := reads_append.mp hreads
    exact (hleads.name_form hT).2.1.symm
  obtain ⟨label, name, token⟩ := x
  obtain ⟨H, T, ws₁, rfl, -, hT, rfl, hs₁, -⟩ := readHead_inv hs h1
  unfold readType at h2
  split at h2
  · cases h2
  · obtain ⟨isMap, s₃, h3, h4⟩ := exists_of_bind h2
    obtain rfl : s₁ = s₃ := by cases h3; rfl
    split at h4
    · obtain ⟨M, V, N, ws₂, rfl, -, -, ⟨value, hV, htarget⟩, hspan, -⟩ := readMap_inv hs₁ h4
      refine ⟨value, htarget, ?_⟩
      rw [hspan]
      exact hname hs₁.lies (by rw [List.append_assoc, List.cons_append]) hV
    · cases h4
      exact ⟨name, rfl, hname hs.lies rfl hT⟩

-- ── The default ──────────────────────────────────────────────────────────────────

/-- The account of the default of a field, if it becomes a number. -/
def defaultChange (source : List Char) (default : Option UInt64) (f : Field) : Change :=
  match f.default?, default with
  | some s, some n =>
    { edits := {⟨s.span, defaultOptionName ++ " = " ++ toString n.toNat⟩}
      gone  := Text.comments (Text.slice source s.span) }
  | _, _ => 0

theorem defaultChange_none (source : List Char) (f : Field) : f.defaultChange source none = 0 := by
  unfold defaultChange
  cases f.default? <;> rfl

theorem defaultChange_of_none {f : Field} (h : f.default? = none) (default : Option UInt64) :
    f.defaultChange source default = 0 := by
  unfold defaultChange
  rw [h]

theorem defaultChange_some {f : Field} {d : Setting} (h : f.default? = some d) (n : UInt64) :
    f.defaultChange source (some n) =
      { edits := {⟨d.span, defaultOptionName ++ " = " ++ toString n.toNat⟩}
        gone  := Text.comments (Text.slice source d.span) } := by
  unfold defaultChange
  rw [h]

/-- The account of a number in the place of a default. -/
theorem recast_default {d : Setting} {A D N : List Word} {w : Word} {name : String}
    (h : Lies source p (A ++ w :: D ++ N)) (hd : Setting.Stands p d A w D) (hvalue : d.value = .ident name)
    (hN : Apart N) (hends : Setting.EntryEnds N) (n : UInt64) :
    Recast p [.keep A, .swap (w :: D) (Setting.defaultWords w.blank n.toNat), .keep N]
      { edits := {⟨d.span, defaultOptionName ++ " = " ++ toString n.toNat⟩}
        gone  := Text.comments (Text.slice source d.span) } where
  edits := by
    have htext : String.ofList (core (Setting.defaultWords w.blank n.toNat))
        = defaultOptionName ++ " = " ++ toString n.toNat := by
      rw [← String.toList_inj, String.toList_ofList, String.toList_append, String.toList_append]
      simp [core, Setting.defaultWords, Word.text]
    rw [Piece.edits, Piece.edits, Piece.edits, Piece.edits, ← hd.span, htext]
    rfl
  fits k hk := by
    obtain ⟨before, after, -, -, hreads⟩ := h
    rw [List.append_assoc] at hreads
    obtain ⟨-, hb, hl, -⟩ := reads_append.mp hreads
    exact .keep (.swap (Setting.swaps_default (hd.apart k hk) hb hl hd.start hends) (.nil _))
  apart := by
    obtain ⟨us, v, hlast, hv⟩ := hd.last _ hvalue
    have hentry : Apart (w :: D) := hlast ▸ .concat us (.inl ⟨name, hv⟩)
    simpa [old] using hd.apart.append (hentry.append hN)
  kept := by
    have hw' : w.kind.isComment = false := by rw [hd.start]; rfl
    have hcomments := h.left.right.comments_slice hw'
    rw [← hd.span] at hcomments
    have hnone : comments (Setting.defaultWords w.blank n.toNat) = [] := rfl
    rw [hcomments]
    simp only [olds_cons, olds_nil, news_cons, news_nil, old, new, comments_append, hnone,
      ← Multiset.coe_add, comments_nil, Multiset.coe_nil, add_zero, zero_add]
    rw [add_right_comm, add_assoc]

/-- The end of a field can be changed in the text so that it is read with a number for its default, if the
    field gets one, and with any type in front of it. -/
def Renumbers (source : List Char) (p : Place) (ws : List Word) (s' : Stream) (oneof : Option String)
    (label : Label) (type : FieldType) (span : Span) (x : String × Token) (default : Option UInt64)
    (f : Field) : Prop :=
  ∃ ps ws' number xs, ws = olds ps ++ ws' ∧ s'.Holds source (p.after (textOf (olds ps))) ws' ∧
    Recast p ps (f.defaultChange source default) ∧ f = ofParts oneof label type span x number xs ∧
    ∀ ⦃source' q t us⦄ (label' : Label) (type' : FieldType) (span' : Span) (y : String × Token),
      Lies source' q (news ps) → t.tokens = significant (placed q (news ps)) ++ us →
      ∃ ys t', finish source' oneof label' type' span' y t
          = .ok (ofParts oneof label' type' span' y number ys, t') ∧ t'.tokens = us ∧
        ys.map Setting.bare
          = ((default.map fun n => Setting.withDefault n xs).getD xs).map Setting.bare

section

variable {oneof : Option String} {label : Label} {type : FieldType} {span : Span} {x : String × Token}
  {s s' : Stream} {ws : List Word} {f : Field}

/-- The end of a field is its number, its options and a semicolon. -/
theorem finish_inv (hs : s.Holds source p ws) (h : finish source oneof label type span x s = .ok (f, s')) :
    ∃ number xs o V ws₁ s₁ s₂ semicolon, readNumber s = .ok (number, s₁) ∧
      Setting.readBracketed source s₁ = .ok ((xs, o), s₂) ∧ symbol ';' s₂ = .ok (semicolon, s') ∧
      ws = V ++ ws₁ ∧ s₁.Holds source (p.after (textOf V)) ws₁ ∧
      f = ofParts oneof label type span x number xs := by
  obtain ⟨number, s₁, h1, hrest⟩ := exists_of_bind h
  obtain ⟨⟨xs, o⟩, s₂, h2, hrest⟩ := exists_of_bind hrest
  obtain ⟨semicolon, s₃, h3, hrest⟩ := exists_of_bind hrest
  cases hrest
  obtain ⟨V, ws₁, rfl, hs₁, -⟩ := (passes_readNumber : Passes source false _) hs h1
  exact ⟨number, xs, o, V, ws₁, s₁, s₂, semicolon, h1, h2, h3, rfl, hs₁, rfl⟩

/-- Without a number or without a default, the end of a field stays. -/
theorem renumbers_of_none {default : Option UInt64} (hs : s.Holds source p ws)
    (h : finish source oneof label type span x s = .ok (f, s'))
    (hstay : default = none ∨ f.default? = none) :
    Renumbers source p ws s' oneof label type span x default f := by
  obtain ⟨number, xs, o, V, ws₁, s₁, s₂, semicolon, h1, h2, h3, rfl, hs₁, rfl⟩ := finish_inv hs h
  have hzero : (ofParts oneof label type span x number xs).defaultChange source default = 0 ∧
      (default.map fun n => Setting.withDefault n xs).getD xs = xs := by
    rcases hstay with rfl | hnone
    · exact ⟨defaultChange_none .., rfl⟩
    · refine ⟨defaultChange_of_none hnone _, ?_⟩
      replace hnone : (xs.find? fun s => s.name == defaultOptionName) = none := hnone
      rw [List.find?_eq_none] at hnone
      cases default with
      | none => rfl
      | some n => exact Setting.withDefault_eq_self fun s hs => by simpa using hnone s hs
  obtain ⟨W, ws₂, rfl, hs₂, -⟩ := (Setting.passes_readBracketed : Passes source false _) hs₁ h2
  obtain ⟨ds, v, ws', rfl, hds, hv, -, -, hs'⟩ := symbol_inv hs₂ h3
  have hcut : V ++ (W ++ (ds ++ v :: ws')) = V ++ W ++ ds ++ [v] ++ ws' := by
    simp only [List.append_assoc, List.cons_append, List.nil_append]
  rw [hcut] at hs
  have hs'' : s'.Holds source (p.after (textOf (V ++ W ++ ds ++ [v]))) ws' := by
    simpa only [textOf_append, Place.after_append, List.append_assoc] using hs'
  refine ⟨[.keep (V ++ W ++ ds ++ [v])], ws', number, xs, ?_, ?_, ?_, rfl, ?_⟩
  · simp [old]
  · rw [olds_cons, olds_nil, List.append_nil]
    exact hs''
  · rw [hzero.1]
    exact .keep p (.concat _ (.inr ⟨';', hv, by decide, by decide⟩))
  · intro source' q t us label' type' span' y hq ht
    rw [news_cons, news_nil, List.append_nil] at hq ht
    obtain ⟨g, t', hg, ht', number', xs', ys, hf, rfl, hxy⟩ :=
      replays_finish oneof label label' type type' span span' x y hs h hs'' hq ht (.zero ..)
    obtain rfl : xs = xs' := congrArg Field.settings hf
    obtain rfl : number = number' := congrArg Field.number hf
    rw [hzero.2]
    exact ⟨ys, t', hg, ht', hxy.symm⟩

/-- A default at the end of a field becomes a number. -/
theorem renumbers_of_some {d : Setting} {name : String} (n : UInt64) (hs : s.Holds source p ws)
    (h : finish source oneof label type span x s = .ok (f, s')) (hd : f.default? = some d)
    (hvalue : d.value = .ident name) :
    Renumbers source p ws s' oneof label type span x (some n) f := by
  obtain ⟨number, xs, o, V, ws₁, s₁, s₂, semicolon, h1, h2, h3, rfl, hs₁, rfl⟩ := finish_inv hs h
  obtain ⟨A, w, D, B, ws₂, rfl, hs₂, hstands, hapart, hends, hagain⟩ :=
    Setting.readBracketed_default hs₁ h2 hd
  obtain ⟨ds, v, ws', rfl, hds, hv, -, -, hs'⟩ := symbol_inv hs₂ h3
  have hv' : v.kind.isComment = false := by rw [hv]; rfl
  have hcut : V ++ (A ++ w :: D ++ B ++ (ds ++ v :: ws'))
      = V ++ A ++ w :: D ++ (B ++ ds ++ [v]) ++ ws' := by
    simp only [List.append_assoc, List.cons_append, List.nil_append]
  have hlies := hs.lies
  rw [hcut] at hlies
  have hparts : v.kind.Parts := .inr ⟨';', hv, by decide, by decide⟩
  have hends' : Setting.EntryEnds (B ++ ds ++ [v]) := by
    obtain ⟨cs, u, us, rfl, hcs, hu⟩ := hends
    exact ⟨cs, u, us ++ ds ++ [v], by simp only [List.append_assoc, List.cons_append], hcs, hu⟩
  have hrecast := recast_default hlies.left (hstands.prepend (hapart V)) hvalue (.concat _ hparts)
    hends' n
  rw [← defaultChange_some hd] at hrecast
  refine ⟨_, ws', number, xs, ?_, ?_, hrecast, rfl, ?_⟩
  · simp [old]
  · simpa [old, Place.after_append] using hs'
  · intro source' q t us label' type' span' y hq ht
    have hnews : news [.keep (V ++ A), .swap (w :: D) (Setting.defaultWords w.blank n.toNat),
        .keep (B ++ ds ++ [v])]
        = V ++ (A ++ Setting.defaultWords w.blank n.toNat ++ B ++ (ds ++ v :: [])) := by
      simp [new]
    rw [hnews] at hq ht
    rw [placed_append, significant_append, List.append_assoc] at ht
    obtain ⟨_, t₁, hnumber, ht₁, rfl⟩ := replays_readNumber hs h1 hs₁ hq.left ht (.zero ..)
    rw [placed_append, significant_append, List.append_assoc, significant_placed_cons hds hv'] at ht₁
    obtain ⟨⟨ys, o'⟩, t₂, hread, ht₂, hbare⟩ := hagain hq.right.left ht₁
    obtain ⟨t₃, hsemi, ht₃⟩ := symbol_ok ht₂ hv
    exact ⟨ys, t₃, (bind_ok hnumber).trans ((bind_ok hread).trans (bind_ok hsemi)), ht₃, hbare⟩

/-- The end of a field is read with a number for its default. -/
theorem recast_finish (hs : s.Holds source p ws)
    (h : finish source oneof label type span x s = .ok (f, s')) (default : Option UInt64)
    (hname : ∀ n d, default = some n → f.default? = some d → ∃ name, d.value = .ident name) :
    Renumbers source p ws s' oneof label type span x default f := by
  cases default with
  | none => exact renumbers_of_none hs h (.inl rfl)
  | some n =>
      cases hd : f.default? with
      | none => exact renumbers_of_none hs h (.inr hd)
      | some d =>
          obtain ⟨name, hvalue⟩ := hname n d rfl hd
          exact renumbers_of_some n hs h hd hvalue

end

/-- The account of a retyped field. -/
def retypeChange (source : List Char) (type : FlagTypeRef) (default : Option UInt64) (f : Field) :
    Change :=
  { edits := {⟨f.typeSpan, type.width.keyword⟩} } + f.defaultChange source default

/-- The edits of the account are those of the field. -/
theorem edits_retypeChange (source : List Char) (type : FlagTypeRef) (default : Option UInt64)
    (f : Field) : (f.retypeChange source type default).edits = f.retypeEdits type default := by
  rw [retypeChange, retypeEdits, Change.edits_add]
  cases hd : f.default? with
  | none => rw [defaultChange_of_none hd]; rfl
  | some d =>
      cases default with
      | none => rw [defaultChange_none]; rfl
      | some n => rw [defaultChange_some hd]; rfl

/-- The name of a field and the equals sign stay apart from what follows. -/
theorem readNamed_inv {s s' : Stream} {ws : List Word} {x : String × Token} (hs : s.Holds source p ws)
    (h : readNamed s = .ok (x, s')) :
    ∃ V ws', ws = V ++ ws' ∧ Apart V ∧ s'.Holds source (p.after (textOf V)) ws' := by
  obtain ⟨y, s₁, h1, hrest⟩ := exists_of_bind h
  obtain ⟨t, s₂, h2, hrest⟩ := exists_of_bind hrest
  cases hrest
  obtain ⟨cs, w, ws₁, rfl, -, -, -, -, hs₁⟩ := name_inv hs h1
  obtain ⟨ds, v, ws', rfl, -, hv, -, -, hs'⟩ := symbol_inv hs₁ h2
  refine ⟨cs ++ [w] ++ ds ++ [v], ws', ?_, .concat _ (.inr ⟨'=', hv, by decide, by decide⟩), ?_⟩
  · simp only [List.append_assoc, List.cons_append, List.nil_append]
  · simpa only [textOf_append, Place.after_append] using hs'

/-- **A field is read with the storage type of its flags and a number for its default.** -/
theorem recast_read {oneof : Option String} {s s' : Stream} {ws : List Word} {f : Field}
    (hs : s.Holds source p ws) (h : read source oneof s = .ok (f, s')) (type : FlagTypeRef)
    (default : Option UInt64)
    (hname : ∀ n d, default = some n → f.default? = some d → ∃ name, d.value = .ident name) :
    Recasts source p ws s' (f.retypeChange source type default) fun W => ∀ source',
      Rereads source' (read source' oneof) W fun g => g.bare = (f.retyped type default).bare := by
  rw [read_eq] at h
  obtain ⟨x, s₁, h1, h⟩ := exists_of_bind h
  obtain ⟨y, s₂, h2, h⟩ := exists_of_bind h
  obtain ⟨z, s₃, h3, h4⟩ := exists_of_bind h
  obtain ⟨ps, ws₁, rfl, hs₂, hps, hagain⟩ := recast_type hs h1 h2 type.width
  obtain ⟨V, ws₂, rfl, hV, hs₃⟩ := readNamed_inv hs₂ h3
  obtain ⟨qs, ws', number, xs, rfl, hs', hqs, hf, hagain'⟩ := recast_finish hs₃ h4 default hname
  have hrecast := hps.append ((Recast.keep _ hV).append (by simpa [old] using hqs))
  rw [zero_add, show y.2 = f.typeSpan by rw [hf]; rfl] at hrecast
  refine ⟨_, ws', ?_, ?_, hrecast, ?_⟩
  · simp [old]
  · simpa [old, Place.after_append] using hs'
  · intro source' q t us hq ht
    have hnews : news (ps ++ ([.keep V] ++ qs)) = news ps ++ (V ++ news qs) := by
      simp [new]
    rw [hnews] at hq ht
    rw [placed_append, significant_append, List.append_assoc] at ht
    have hahead : Ahead 1 s₂.tokens
        (significant (placed (q.after (textOf (news ps))) (V ++ news qs)) ++ us) := by
      have hne := hs₂.significant_ne_nil hs₃ rfl (Nat.lt_of_lt_of_le (by omega) (takes_readNamed h3))
      rw [hs₂.tokens_cut hs₃ rfl, placed_append, significant_append, List.append_assoc]
      refine (Ahead.zero ..).append (kinds_significant_placed ..) ?_
      rw [Nat.zero_add]
      exact List.length_pos_iff.mpr hne
    obtain ⟨x', t₁, y', t₂, hx, hy, ht₂, hlabel, htype⟩ := hagain hq.left ht hahead
    rw [placed_append, significant_append, List.append_assoc] at ht₂
    obtain ⟨z', t₃, hz, ht₃, hzz⟩ := replays_readNamed hs₂ h3 hs₃ hq.right.left ht₂ (.zero ..)
    obtain ⟨ys, t', hg, ht', hbare⟩ := hagain' x'.1 y'.1 y'.2 z' hq.right.right ht₃
    refine ⟨ofParts oneof x'.1 y'.1 y'.2 z' number ys, t', ?_, ht', ?_⟩
    · rw [read_eq, bind_ok hx, bind_ok hy, bind_ok hz]
      exact hg
    · have hzname : z.1 = z'.1 := hzz
      rw [hf]
      simp only [bare, ofParts, retyped, hlabel, htype, hzname, hbare]

end Field

end FlagSchema
