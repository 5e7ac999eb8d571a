import Mathlib.Data.Multiset.Bind
import FlagSchema.Proofs.Rereading
import FlagSchema.Proofs.Writing

/-!
# Enums that become sets of flags

A marked enum with the body of a set of flags is read as the set of flags. The comments of its body are
there afterwards, except those that go with what is dropped; those that options and values quote are there
a second time.

* **`EnumDef.writes_flagLines`**: the lines of the new body are read as what they are written for.
* **`EnumDef.flagsChange`**: the account of an enum.
* **`EnumDef.recast_read`**: an enum is read with its new body.
-/

namespace FlagSchema

open Token Reader Piece

variable {source : List Char} {p : Place}

-- ── The account ──────────────────────────────────────────────────────────────────

namespace EnumDef

/-- The comments that go with the options of a marked enum: those behind options that do not stay, the
    first marker apart. -/
def dropped (e : EnumDef) : Multiset String :=
  (((e.settings.eraseP Setting.marksFlags).filter fun x => !x.isKept).map Setting.behind).sum

/-- The comments that the options and values of a set of flags quote. -/
def quoted (source : List Char) (e : EnumDef) : Multiset String :=
  ((e.settings.filter Setting.isKept).map (Setting.quoted source)).sum +
    (e.values.map (EnumValue.quoted source)).sum

/-- The account of an enum. -/
def flagsChange (source : List Char) (e : EnumDef) : Change :=
  if e.marksFlags then
    { edits := {e.bodyEdit source}, gone := e.dropped, twice := e.quoted source }
  else 0

end EnumDef

theorem Setting.isKept_eq_false {x : Setting} (h : x.marksFlags = true) : x.isKept = false := by
  rw [isKept, h]
  rfl

/-- The comments behind options that stay and behind those that do not. -/
theorem Setting.sum_behind_filter (xs : List Setting) :
    ((xs.filter fun x => !x.isKept).map behind).sum + ((xs.filter isKept).map behind).sum
      = (xs.map behind).sum := by
  rw [add_comm, ← List.sum_append, ← List.map_append]
  exact ((List.filter_append_perm isKept xs).map behind).sum_eq

/-- The comment behind the first marker and those that are dropped are those behind options that do not
    stay. -/
theorem Setting.sum_behind_eraseP (xs : List Setting) :
    (((xs.find? marksFlags).bind trailing).toList : Multiset String) +
        (((xs.eraseP marksFlags).filter fun x => !x.isKept).map behind).sum
      = ((xs.filter fun x => !x.isKept).map behind).sum := by
  induction xs with
  | nil => rfl
  | cons x xs ih =>
      cases hx : x.marksFlags with
      | true =>
          rw [List.find?_cons_of_pos hx, List.eraseP_cons_of_pos hx, List.filter_cons,
            if_pos (by rw [isKept_eq_false hx]; rfl)]
          rfl
      | false =>
          rw [List.find?_cons_of_neg (by simp [hx]), List.eraseP_cons_of_neg (by simp [hx]),
            List.filter_cons, List.filter_cons]
          split
          · rw [List.map_cons, List.map_cons, List.sum_cons, List.sum_cons, ← ih, add_left_comm]
          · exact ih

-- ── The lines of the new body ────────────────────────────────────────────────────

/-- What is the same for values of other numbers is the same for values as flags. -/
theorem EnumValue.map_asFlags {α : Type} {f : EnumValue → α}
    (hf : ∀ y n, f { y with number := n } = f y) (i : Nat) (ys : List EnumValue) :
    (EnumValue.asFlags i ys).map f = ys.map f := by
  induction ys generalizing i with
  | nil => rfl
  | cons y ys ih => rw [asFlags, List.map_cons, List.map_cons, hf, ih]

/-- A value as a flag is a value with the number of a flag. -/
theorem EnumValue.exists_of_mem_asFlags {i : Nat} {z : EnumValue} {ys : List EnumValue}
    (h : z ∈ EnumValue.asFlags i ys) : ∃ y ∈ ys, ∃ j, z = { y with number := (flagBit j).toNat } := by
  induction ys generalizing i with
  | nil => cases h
  | cons y ys ih =>
      rcases List.mem_cons.mp h with rfl | h
      · exact ⟨y, List.mem_cons_self .., i, rfl⟩
      · obtain ⟨y', hy', hz⟩ := ih h
        exact ⟨y', List.mem_cons_of_mem _ hy', hz⟩

/-- The number of a flag is one that can be read. -/
theorem flagBit_lt (i : Nat) : (flagBit i).toNat < integerLimit :=
  Nat.lt_of_lt_of_le (flagBit i).toNat_lt (by decide)

/-- The number of a value is no part of what it quotes. -/
theorem EnumValue.Spelled.withNumber {y : EnumValue} (h : y.Spelled source) (n : Int) :
    EnumValue.Spelled source { y with number := n } := by
  refine ⟨h.name, h.settings.imp_right ?_⟩
  rintro ⟨span, us, v, hbracketed⟩
  exact ⟨span, us, v, hbracketed.place, hbracketed.slice, hbracketed.closing, hbracketed.reads,
    hbracketed.inside⟩

/-- The value for the empty set with a comment behind it. -/
def EnumValue.emptySetBehind (c : Option String) : EnumValue := { emptySet with trailing := c }

theorem EnumValue.spelled_emptySetBehind (c : Option String) : (emptySetBehind c).Spelled source :=
  ⟨⟨⟨[], emptySetName.toList, .ident emptySetName⟩, [], leads_name _ (by decide) trivial, rfl⟩,
    .inl ⟨rfl, rfl⟩⟩

namespace EnumDef

theorem isBlank_of_isIndent {c : Char} (h : Edit.isIndent c = true) : Text.isBlank c = true := by
  simp only [Edit.isIndent, Bool.or_eq_true, beq_iff_eq] at h
  rcases h with rfl | rfl <;> decide

theorem all_isBlank_indentAt (source : List Char) (offset : Nat) :
    (Edit.indentAt source offset).all Text.isBlank = true := by
  have hindent : (Edit.indentAt source offset).all Edit.isIndent = true := List.all_takeWhile
  exact List.all_eq_true.mpr fun c hc => isBlank_of_isIndent (List.all_eq_true.mp hindent c hc)

/-- The indentation of statements is made of blanks. -/
theorem all_isBlank_innerIndent (source : List Char) (e : EnumDef) :
    (e.innerIndent source).toList.all Text.isBlank = true := by
  rw [innerIndent, String.toList_ofList]
  cases hown : e.values.head?.bind fun v => Edit.ownIndentAt? source v.span.start with
  | none =>
      rw [Option.getD_none, List.all_append, all_isBlank_indentAt]
      rfl
  | some line =>
      obtain ⟨v, -, hline⟩ := Option.bind_eq_some_iff.mp hown
      rw [Edit.ownIndentAt?] at hline
      split at hline
      · next hall =>
          cases hline
          exact List.all_eq_true.mpr fun c hc => isBlank_of_isIndent (List.all_eq_true.mp hall c hc)
      · cases hline

/-- The lines of the body of a set of flags, between the lines of the braces. -/
def flagLines (source : List Char) (e : EnumDef) : String :=
  valueLines source (e.innerIndent source) (.emptySetBehind e.markerComment) ++
    (String.join ((e.settings.filter Setting.isKept).map (settingLine source (e.innerIndent source))) ++
    (String.join ((EnumValue.asFlags 0 e.values).map (valueLines source (e.innerIndent source))) ++
    String.join (e.dangling.map fun c => e.innerIndent source ++ c ++ "\n")))

theorem toList_flagBody (source : List Char) (e : EnumDef) :
    (e.flagBody source).toList
      = '\x7b' :: ('\n' :: (e.flagLines source).toList ++ Edit.indentAt source e.keyword.start ++ ['\x7d']) := by
  have hempty : valueLines source (e.innerIndent source) (.emptySetBehind e.markerComment)
      = e.innerIndent source ++ emptySetName ++ " = 0;" ++ behind e.markerComment ++ "\n" := by
    have hnumber : toString (0 : Int) = "0" := rfl
    simp [valueLines, EnumValue.emptySetBehind, EnumValue.emptySet, String.append_assoc, hnumber]
  rw [flagBody, flagLines, hempty]
  have hopen : "\x7b\n".toList = ['\x7b', '\n'] := rfl
  have hclose : "\x7d".toList = ['\x7d'] := rfl
  simp only [String.toList_append, String.toList_ofList, List.append_assoc, hopen, hclose,
    List.cons_append, List.nil_append]

/-- The comments of an enum are some that were read. -/
structure Commented (e : EnumDef) : Prop where
  settings : ∀ x ∈ e.settings, ∀ c ∈ x.trailing, IsComment c
  leading  : ∀ y ∈ e.values, ∀ c ∈ y.leading, IsComment c
  trailing : ∀ y ∈ e.values, ∀ c ∈ y.trailing, IsComment c
  dangling : ∀ c ∈ e.dangling, IsComment c

/-- **The lines of the body of a set of flags are read as its options and values.** -/
theorem writes_flagLines {e : EnumDef} (hb : Body.Sound source ⟨e.settings, e.values⟩)
    (hc : e.Commented) :
    Writes (e.flagLines source)
      (e.markerComment.toList + (((e.settings.filter Setting.isKept).map Setting.behind).sum +
        ((e.values.map EnumValue.around).sum + (e.dangling + e.quoted source))))
      (e.settings.filter Setting.isKept)
      (.emptySetBehind e.markerComment :: EnumValue.asFlags 0 e.values) := by
  have hindent := all_isBlank_innerIndent source e
  have hmarker : ∀ c ∈ e.markerComment, IsComment c := by
    intro c hm
    obtain ⟨x, hx, hxc⟩ := Option.bind_eq_some_iff.mp (Option.mem_def.mp hm)
    exact hc.settings x (List.mem_of_find?_eq_some hx) c hxc
  have hspelled : (EnumValue.emptySetBehind e.markerComment).Spelled source :=
    EnumValue.spelled_emptySetBehind e.markerComment
  have hempty : Writes _ _ [] [.emptySetBehind e.markerComment] :=
    hspelled.writes hindent (n := 0) rfl (by decide) nofun hmarker
  have hsettings : ∀ x ∈ e.settings.filter Setting.isKept,
      Writes (settingLine source (e.innerIndent source) x) (x.quoted source + x.behind) [x] [] := by
    intro x hx
    obtain ⟨hx, -⟩ := List.mem_filter.mp hx
    obtain ⟨w, us, v, hspelled⟩ := hb.settings x hx
    exact hspelled.writes hindent (hc.settings x hx)
  have hvalues : ∀ z ∈ EnumValue.asFlags 0 e.values,
      Writes (valueLines source (e.innerIndent source) z) (z.quoted source + z.around) [] [z] := by
    intro z hz
    obtain ⟨y, hy, i, rfl⟩ := EnumValue.exists_of_mem_asFlags hz
    exact ((hb.values y hy).withNumber _).writes hindent rfl (flagBit_lt i) (hc.leading y hy)
      (hc.trailing y hy)
  have hlines := hempty.append ((Writes.joinSettings hsettings).append
    ((Writes.joinValues hvalues).append (.allComments hindent hc.dangling)))
  have hcomments : ((EnumValue.emptySetBehind e.markerComment).quoted source +
        (EnumValue.emptySetBehind e.markerComment).around) +
      (((e.settings.filter Setting.isKept).map fun x => x.quoted source + x.behind).sum +
        (((EnumValue.asFlags 0 e.values).map fun z => z.quoted source + z.around).sum + e.dangling))
      = e.markerComment.toList + (((e.settings.filter Setting.isKept).map Setting.behind).sum +
        ((e.values.map EnumValue.around).sum + (e.dangling + e.quoted source))) := by
    have hempty : (EnumValue.emptySetBehind e.markerComment).quoted source +
        (EnumValue.emptySetBehind e.markerComment).around = e.markerComment.toList := by
      show (0 : Multiset String) + (([] : List String) + _) = _
      rw [zero_add, Multiset.coe_nil, zero_add]
      rfl
    rw [hempty, EnumValue.map_asFlags (f := fun z => z.quoted source + z.around) (fun _ _ => rfl),
      List.sum_map_add, List.sum_map_add, quoted]
    abel
  rw [hcomments] at hlines
  simp only [List.append_nil, List.nil_append] at hlines
  exact hlines

/-- The comments of the lines and those that are dropped are those of the old body and those that are
    quoted. -/
theorem comments_flagLines (source : List Char) (e : EnumDef) :
    (e.markerComment.toList + (((e.settings.filter Setting.isKept).map Setting.behind).sum +
        ((e.values.map EnumValue.around).sum + (e.dangling + e.quoted source)))) + e.dropped
      = Body.collected ⟨e.settings, e.values⟩ + e.dangling + e.quoted source := by
  rw [Body.collected, ← Setting.sum_behind_filter e.settings, ← Setting.sum_behind_eraseP e.settings,
    dropped, markerComment]
  abel

-- ── The new body in the place of the old one ─────────────────────────────────────

/-- A comment of one of several things is one of all of them. -/
theorem mem_sum_of_mem {α : Type} {xs : List α} {f : α → Multiset String} {x : α} {c : String}
    (hx : x ∈ xs) (hc : c ∈ f x) : c ∈ (xs.map f).sum :=
  Multiset.mem_join.mpr ⟨f x, Multiset.mem_coe.mpr (List.mem_map_of_mem hx), hc⟩

/-- What an enum has collected are comments if all comments of its body are. -/
theorem commented_of_balance {e : EnumDef} {vs : List Word} {tail : List Char} (hr : Reads tail vs)
    (h : Body.collected ⟨e.settings, e.values⟩ + e.dangling = comments vs) : e.Commented := by
  have hall : ∀ c ∈ Body.collected ⟨e.settings, e.values⟩ + e.dangling, IsComment c := by
    intro c hc
    rw [h] at hc
    exact hr.isComment c (Multiset.mem_coe.mp hc)
  have hsettings : ∀ c ∈ (e.settings.map Setting.behind).sum, IsComment c := fun c hc =>
    hall c (Multiset.mem_add.mpr (.inl (Multiset.mem_add.mpr (.inl hc))))
  have hvalues : ∀ y ∈ e.values, ∀ c ∈ y.around, IsComment c := fun y hy c hc =>
    hall c (Multiset.mem_add.mpr (.inl (Multiset.mem_add.mpr (.inr (mem_sum_of_mem hy hc)))))
  refine ⟨fun x hx c hc => ?_, fun y hy c hc => ?_, fun y hy c hc => ?_, fun c hc => ?_⟩
  · exact hsettings c (mem_sum_of_mem hx (Multiset.mem_coe.mpr (Option.mem_toList.mpr hc)))
  · exact hvalues y hy c (Multiset.mem_add.mpr (.inl (Multiset.mem_coe.mpr hc)))
  · exact hvalues y hy c (Multiset.mem_add.mpr (.inr (Multiset.mem_coe.mpr (Option.mem_toList.mpr hc))))
  · exact hall c (Multiset.mem_add.mpr (.inr (Multiset.mem_coe.mpr hc)))

/-- The name of an enum and its opening brace. -/
theorem readHead_inv {s s' : Stream} {ws : List Word} {x : String × Token × Token}
    (hs : s.Holds source p ws) (h : readHead s = .ok (x, s')) :
    ∃ N O ws', ws = N ++ O :: ws' ∧ O.kind = .symbol '\x7b' ∧ x.2.2 = O.token (p.after (textOf N)) ∧
      Apart N ∧ s'.Holds source (p.after (textOf (N ++ [O]))) ws' := by
  obtain ⟨⟨name, token⟩, s₁, h1, hrest⟩ := exists_of_bind h
  obtain ⟨opening, s₂, h2, hrest⟩ := exists_of_bind hrest
  cases hrest
  obtain ⟨cs, w, ws₁, rfl, hcs, hw, -, -, hs₁⟩ := name_inv hs h1
  obtain ⟨ds, O, ws', rfl, hds, hO, hopening, -, hs'⟩ := symbol_inv hs₁ h2
  refine ⟨cs ++ [w] ++ ds, O, ws', ?_, hO, ?_, (Apart.concat cs (.inl ⟨name, hw⟩)).append (.of_comments hds), ?_⟩
  · simp only [List.append_assoc, List.cons_append, List.nil_append]
  · rw [hopening, textOf_append _ ds, Place.after_append]
  · simpa only [textOf_append, Place.after_append] using hs'

/-- The closing brace of a new body. -/
def closingWord (outer : List Char) : Word := ⟨'\n' :: outer, ['\x7d'], .symbol '\x7d'⟩

/-- The words of a new body fit in the place of those of the old one. -/
theorem swaps_body {k : Option Kind} {O : Word} {old W : List Word} {outer rest : List Char}
    (hleads : O.Leads rest) (hO : O.kind = .symbol '\x7b') (houter : outer.all Text.isBlank = true)
    (hW : ∀ rest, Reads ('\n' :: rest) W) :
    Swaps k (O :: old) (O :: (W ++ [closingWord outer])) [] where
  start := ⟨O, _, O, _, rfl, rfl, rfl, by rw [hO]; rfl⟩
  front cs ds := by
    have hparts : O.kind.Parts := .inr ⟨'\x7b', hO, by decide, by decide⟩
    rw [textOf_cons, textOf_cons, List.append_assoc, List.append_assoc]
    exact .inl (.of_common hleads.text_ne_nil (hleads.text_ne_dot hparts) _ _)
  reads cs ds _ hr := by
    obtain ⟨hblank, hleads, -⟩ := hr
    have hclosing : Reads ds [closingWord outer] :=
      ⟨by rw [closingWord, List.all_cons, houter]; decide,
        leads_symbol _ _ (by decide) (by decide) (by decide) (by decide) (by decide), trivial⟩
    rw [List.append_nil]
    exact ⟨hblank, hleads.of_symbol hO (by decide) (by decide) _, reads_append.mpr ⟨hW _, hclosing⟩⟩

theorem core_body {e : EnumDef} {O : Word} {W : List Word} {rest : List Char} (hleads : O.Leads rest)
    (hO : O.kind = .symbol '\x7b') (hW : '\n' :: (e.flagLines source).toList = textOf W ++ ['\n']) :
    core (O :: (W ++ [closingWord (Edit.indentAt source e.keyword.start)])) = (e.flagBody source).toList := by
  rw [toList_flagBody, hW, core, (hleads.symbol_form hO).1, textOf_append]
  simp [closingWord, Word.text]

/-- The new body of a marked enum in the place of the old one. -/
theorem recast_body {e : EnumDef} {N vs : List Word} {O C : Word} {rest : List Char}
    (hmarks : e.marksFlags = true) (hN : Apart N) (hr : Reads rest (O :: (vs ++ [C])))
    (hO : O.kind = .symbol '\x7b') (hC : C.kind = .symbol '\x7d')
    (hopening : e.opening = (O.token (p.after (textOf N))).span)
    (hclosing : e.closing = (C.token (p.after (textOf (N ++ O :: vs)))).span)
    (hb : Body.Sound source ⟨e.settings, e.values⟩)
    (hbalance : Body.collected ⟨e.settings, e.values⟩ + e.dangling = comments vs) :
    ∃ W, Recast p [.keep N, .swap (O :: (vs ++ [C]))
        (O :: (W ++ [closingWord (Edit.indentAt source e.keyword.start)])), .keep []] (e.flagsChange source) ∧
      Adds W (e.settings.filter Setting.isKept)
        (.emptySetBehind e.markerComment :: EnumValue.asFlags 0 e.values) := by
  have hO' : O.kind.isComment = false := by rw [hO]; rfl
  have hC' : C.kind.isComment = false := by rw [hC]; rfl
  obtain ⟨-, hleads, hbody⟩ := hr
  obtain ⟨W, htext, hcomments, hreads, hadds⟩ :=
    writes_flagLines hb (commented_of_balance (reads_append.mp hbody).1 hbalance)
  refine ⟨W, ⟨?_, fun k hk => ?_, ?_, ?_⟩, hadds⟩
  · have hspan : spanOf (p.after (textOf N)) (O :: (vs ++ [C])) = ⟨e.opening.start, e.closing.stop⟩ := by
      rw [spanOf, startOf_cons hO', hopening, hclosing, Word.start_token, Word.stop_token]
      simp only [textOf_append, textOf_cons, textOf_nil, List.append_nil, Place.after_append]
    rw [flagsChange, if_pos hmarks]
    show (([⟨spanOf (p.after (textOf N)) (O :: (vs ++ [C])), String.ofList (core _)⟩] : List Edit) :
      Multiset Edit) = _
    rw [hspan, core_body hleads hO htext, String.ofList_toList]
    rfl
  · exact .keep (.swap (swaps_body hleads hO (all_isBlank_indentAt ..) hreads) (.nil _))
  · have holds : olds [.keep N, .swap (O :: (vs ++ [C]))
        (O :: (W ++ [closingWord (Edit.indentAt source e.keyword.start)])), .keep []]
        = N ++ (O :: vs ++ [C]) := by simp [old]
    rw [holds]
    exact hN.append (.concat _ (.inr ⟨'\x7d', hC, by decide, by decide⟩))
  · have hclosingWord : comments [closingWord (Edit.indentAt source e.keyword.start)] = [] := rfl
    have hlast : comments [C] = [] := comments_cons hC' []
    rw [flagsChange, if_pos hmarks]
    simp only [olds_cons, olds_nil, news_cons, news_nil, old, new, comments_append, comments_cons hO',
      hclosingWord, hlast, List.append_nil, ← Multiset.coe_add]
    rw [hcomments, add_assoc, comments_flagLines, hbalance, add_assoc]

/-- The closing brace ends the body. -/
theorem bodyStep_close (source : List Char) {t : Stream} {closing : Token} {us : List Token} (b : Body)
    (ht : t.tokens = closing :: us) (hk : closing.kind = .symbol '\x7d') :
    ∃ t', bodyStep source b t = .ok (.inr (b, closing), t') ∧ t'.tokens = us := by
  have hpeek : peek? t = .ok (some (.symbol '\x7d'), t) := by
    rw [← hk, ← kindAt?_zero ht]
    rfl
  obtain ⟨t', hnext, ht'⟩ := next_ok .enumValue ht
  refine ⟨t', ?_, ht'⟩
  unfold bodyStep
  rw [bind_ok hpeek]
  dsimp only
  rw [if_pos rfl]
  exact bind_ok hnext

/-- What options and values are added to nothing, up to the closing brace, are those of the enum. -/
theorem readBody_of_adds {W : List Word} {xs : List Setting} {ys : List EnumValue} (hW : Adds W xs ys)
    {source : List Char} {q : Place} {t : Stream} {closing : Token} {us : List Token}
    (hq : Lies source q W) (ht : t.tokens = significant (placed q W) ++ closing :: us)
    (hk : closing.kind = .symbol '\x7d') :
    ∃ y t', readBody source t = .ok (y, t') ∧ t'.tokens = us ∧
      y.1.settings.map Setting.bare = xs.map Setting.bare ∧
      y.1.values.map EnumValue.bare = ys.map EnumValue.bare := by
  have h1 : dropHeld t = .ok ((), { t with held := [] }) := rfl
  obtain ⟨b, t₂, hread, ht₂, hxs, hys⟩ := hW {} hq (t := { t with held := [] }) ht
  obtain ⟨t₃, hclose, ht₃⟩ := bodyStep_close source b ht₂ hk
  have h2 : readStatements source {} { t with held := [] } = .ok ((b, closing), t₃) := by
    rw [hread, readStatements, iterate_eq, bind_ok hclose]
    rfl
  have h3 : takeHeld t₃ = .ok (t₃.held, { t₃ with held := [] }) := rfl
  exact ⟨_, { t₃ with held := [] }, (bind_ok h1).trans ((bind_ok h2).trans (bind_ok h3)), ht₃, hxs, hys⟩

/-- An enum with the options and values of a set of flags is the set of flags. -/
theorem bare_asFlags {e g : EnumDef} (hmarks : e.marksFlags = true) (hname : g.name = e.name)
    (hxs : g.settings.map Setting.bare = (e.settings.filter Setting.isKept).map Setting.bare)
    (hys : g.values.map EnumValue.bare
      = (EnumValue.emptySetBehind e.markerComment :: EnumValue.asFlags 0 e.values).map EnumValue.bare) :
    g.bare = e.asFlags.bare := by
  rw [asFlags, if_pos hmarks]
  simp only [bare, hname, hxs, hys]
  rfl

/-- **An enum is read with its new body.** -/
theorem recast_read {keyword : Token} {s s' : Stream} {ws : List Word} {e : EnumDef}
    (hs : s.Holds source p ws) (h : read source keyword s = .ok (e, s')) :
    Recasts source p ws s' (e.flagsChange source) fun W => ∀ source' keyword',
      Rereads source' (read source' keyword') W fun g => g.bare = e.asFlags.bare := by
  have hread := h
  rw [read_eq] at h
  obtain ⟨x, s₁, h1, hrest⟩ := exists_of_bind h
  obtain ⟨⟨b, closing, dangling⟩, s₂, h2, hrest⟩ := exists_of_bind hrest
  cases hrest
  obtain ⟨N, O, ws₁, rfl, hO, hopening, hN, hs₁⟩ := readHead_inv hs h1
  obtain ⟨vs, C, ws', rfl, hC, hclosing, hs', hb, hbalance⟩ := readBody_inv hs₁ h2
  have hcut : N ++ O :: (vs ++ C :: ws') = N ++ (O :: (vs ++ [C])) ++ ws' := by
    simp only [List.append_assoc, List.cons_append, List.nil_append]
  have hs'' : s'.Holds source (p.after (textOf (N ++ (O :: (vs ++ [C]))))) ws' := by
    simpa only [textOf_append, textOf_cons, textOf_nil, List.append_nil, Place.after_append] using hs'
  rw [hcut] at hs ⊢
  cases hmarks : (ofParts keyword x (b, closing, dangling)).marksFlags with
  | true =>
      obtain ⟨before, after, -, -, hreads⟩ := hs.lies.left.right
      have hplace : closing = C.token (p.after (textOf (N ++ O :: vs))) := by
        rw [hclosing]
        simp only [textOf_append, textOf_cons, textOf_nil, List.append_nil, Place.after_append]
      obtain ⟨W, hrecast, hadds⟩ := recast_body hmarks hN hreads hO hC (congrArg Token.span hopening)
        (congrArg Token.span hplace) hb hbalance
      refine ⟨_, ws', ?_, ?_, hrecast, ?_⟩
      · simp [old]
      · simpa [old] using hs''
      · intro source' keyword' q t us hq ht
        have hnews : news [.keep N, .swap (O :: (vs ++ [C])) (O :: (W ++ [closingWord
            (Edit.indentAt source (ofParts keyword x (b, closing, dangling)).keyword.start)])), .keep []]
            = N ++ [O] ++ W ++ [closingWord
              (Edit.indentAt source (ofParts keyword x (b, closing, dangling)).keyword.start)] := by
          simp [new]
        rw [hnews] at hq ht
        rw [placed_append, placed_append, significant_append, significant_append, List.append_assoc,
          List.append_assoc] at ht
        have hhead : s.Holds source p (N ++ [O] ++ (vs ++ C :: ws')) := by
          simpa only [List.append_assoc, List.cons_append, List.nil_append] using hs
        obtain ⟨x', t₁, hx', ht₁, hxx⟩ := replays_readHead hhead h1 hs₁ hq.left.left ht (.zero ..)
        obtain ⟨y, t', hy, ht', hxs, hys⟩ := readBody_of_adds hadds hq.left.right ht₁ rfl
        have hagain := (congrFun (read_eq source' keyword') t).trans ((bind_ok hx').trans (bind_ok hy))
        exact ⟨_, t', hagain, ht', bare_asFlags hmarks (Eq.symm hxx) hxs hys⟩
  | false =>
      have hstays : (ofParts keyword x (b, closing, dangling)).asFlags
          = ofParts keyword x (b, closing, dangling) := by
        rw [asFlags, if_neg (by simp [hmarks])]
      have happ : N ++ O :: (vs ++ [C]) = (N ++ O :: vs) ++ [C] := by simp
      rw [flagsChange, if_neg (by simp [hmarks]), hstays]
      refine .keep rfl hs'' (happ ▸ .concat _ (.inr ⟨'\x7d', hC, by decide, by decide⟩)) ?_
      intro source' keyword'
      exact (Replays.rereads (fun q => replays_read keyword keyword') hs hread hs'').mono fun g => Eq.symm

end EnumDef

end FlagSchema
