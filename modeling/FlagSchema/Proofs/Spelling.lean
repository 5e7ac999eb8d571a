import Mathlib.Data.List.Forall2
import FlagSchema.Proofs.Literals
import FlagSchema.Proofs.Printing

/-!
# Tokens written and scanned

Tokens written with spaces between them are scanned as themselves: a space is where every name and every
number ends, and a string ends by itself.

* **`Kind.IsSpelled`**: the kinds of tokens that are written as the scanner reads them.
* **`leads_spelled`**: the scanner finds each of them in front of a space.
* **`tokenize_spaced`**: the tokens of a text that is written of them.
-/

namespace FlagSchema.Token

variable {rest : List Char}

/-- A text that is at its end or starts with a space. -/
def AtSpace (rest : List Char) : Prop := ∀ c, rest.head? = some c → c = ' '

theorem AtSpace.nameEnds (h : AtSpace rest) : NameEnds rest := by
  cases rest with
  | nil => trivial
  | cons c cs =>
      obtain rfl := h c rfl
      exact ⟨by decide, fun hdot => absurd hdot.1 (by decide)⟩

theorem AtSpace.digitsEnd (h : AtSpace rest) : DigitsEnd rest := by
  intro c hc
  obtain rfl := h c hc
  decide

-- ── Names ────────────────────────────────────────────────────────────────────────

/-- Plain names joined by dots start with a name start. -/
theorem head_of_parts {parts : List (List Char)} (hne : parts ≠ [])
    (h : ∀ part ∈ parts, isPlainName part = true) :
    ∃ c ds, ['.'].intercalate parts = c :: ds ∧ isNameStart c = true := by
  cases parts with
  | nil => exact absurd rfl hne
  | cons part parts =>
      obtain ⟨c, ds, rfl, hc, -⟩ := exists_of_isPlainName (h part (List.mem_cons_self ..))
      cases parts with
      | nil => exact ⟨c, ds, List.intercalate_singleton, hc⟩
      | cons other parts => exact ⟨c, _, List.intercalate_cons_cons, hc⟩

/-- A name goes on through plain names joined by dots. -/
theorem cutName_parts {parts : List (List Char)} (hne : parts ≠ [])
    (h : ∀ part ∈ parts, isPlainName part = true) (hrest : NameEnds rest) :
    cutName (['.'].intercalate parts ++ rest) = (['.'].intercalate parts, rest) := by
  induction parts with
  | nil => exact absurd rfl hne
  | cons part parts ih =>
      obtain ⟨hpart, hparts⟩ := List.forall_mem_cons.mp h
      obtain ⟨-, -, -, -, hchars⟩ := exists_of_isPlainName hpart
      cases parts with
      | nil =>
          rw [List.intercalate_singleton, cutName_append_of_nameChars hchars, nameEnds_iff.mp hrest,
            List.append_nil]
      | cons other parts =>
          obtain ⟨c, ds, hhead, hc⟩ := head_of_parts (List.cons_ne_nil other parts) hparts
          have hdot : cutName (['.'] ++ (['.'].intercalate (other :: parts) ++ rest))
              = (['.'] ++ ['.'].intercalate (other :: parts), rest) := by
            rw [List.singleton_append, cutName, if_pos, ih (List.cons_ne_nil _ _) hparts]
            · rfl
            · rw [hhead]
              simp [hc]
          rw [List.intercalate_cons_cons, List.append_assoc, List.append_assoc,
            cutName_append_of_nameChars hchars, hdot, List.append_assoc]

/-- A name is made of plain names joined by dots, and a dot may stand in front. -/
theorem exists_parts_of_isName {name : String} (h : isName name = true) :
    ∃ parts, parts ≠ [] ∧ (∀ part ∈ parts, isPlainName part = true) ∧
      (name.toList = ['.'].intercalate parts ∨ name.toList = '.' :: ['.'].intercalate parts) := by
  have hjoin := Text.join_splitAt '.' name.toList
  rw [isName] at h
  split at h
  · cases h
  · next parts heq =>
      rw [Bool.and_eq_true, Bool.not_eq_true', List.isEmpty_eq_false_iff, List.all_eq_true] at h
      refine ⟨parts, h.1, h.2, .inr ?_⟩
      rw [heq] at hjoin
      cases parts with
      | nil => exact absurd rfl h.1
      | cons part parts => rw [← hjoin, List.intercalate_cons_cons]; rfl
  · rw [List.all_eq_true] at h
    exact ⟨_, Text.splitAt_ne_nil _ _, h, .inl hjoin.symm⟩

/-- A name starts as one and goes on to its end. -/
theorem cutName_of_isName {name : String} (h : isName name = true) (hrest : NameEnds rest) :
    (∃ c cs, name.toList = c :: cs ∧
        (isNameStart c = true ∨ c = '.' ∧ (cs ++ rest).head?.any isNameStart = true)) ∧
      cutName (name.toList ++ rest) = (name.toList, rest) := by
  obtain ⟨parts, hne, hparts, hname⟩ := exists_parts_of_isName h
  obtain ⟨c, cs, hhead, hc⟩ := head_of_parts hne hparts
  have hcut := cutName_parts hne hparts hrest
  rcases hname with hname | hname
  · rw [hname]
    exact ⟨⟨c, cs, hhead, .inl hc⟩, hcut⟩
  · have hstart : (['.'].intercalate parts ++ rest).head?.any isNameStart = true := by
      rw [hhead]
      exact hc
    rw [hname]
    refine ⟨⟨'.', _, rfl, .inr ⟨rfl, hstart⟩⟩, ?_⟩
    rw [List.cons_append, cutName, if_pos (by rw [hstart]; rfl), hcut]

/-- What the scanner takes as a name has the characters of plain names and dots. -/
theorem nameChars_of_cutName (cs : List Char) : ∀ c ∈ (cutName cs).1, isNameChar c = true ∨ c = '.' := by
  induction cs with
  | nil => exact List.forall_mem_nil _
  | cons d cs ih =>
      rw [cutName]
      split
      · next hd =>
          simp only [Bool.or_eq_true, Bool.and_eq_true, beq_iff_eq] at hd
          exact List.forall_mem_cons.mpr ⟨hd.imp_right And.left, ih⟩
      · exact List.forall_mem_nil _

/-- The characters of a name are those of plain names and dots. -/
theorem nameChars_of_isName {name : String} (h : isName name = true) :
    ∀ c ∈ name.toList, isNameChar c = true ∨ c = '.' := by
  have hcut := (cutName_of_isName h (show NameEnds [] from trivial)).2
  have hname : (cutName (name.toList ++ [])).1 = name.toList := congrArg Prod.fst hcut
  rw [← hname]
  exact nameChars_of_cutName _

/-- The scanner finds a name in front of a text that could not go on with it. -/
theorem leads_dotted {name : String} (b : List Char) (h : isName name = true) (hrest : NameEnds rest) :
    (⟨b, name.toList, .ident name⟩ : Word).Leads rest := by
  obtain ⟨⟨c, cs, hname, hstart⟩, hcut⟩ := cutName_of_isName h hrest
  refine Form.leads (.name c cs hname hstart ?_ hcut)
  show Kind.ident name = .ident (String.ofList name.toList)
  rw [String.ofList_toList]

theorem isPlainName_of_head {part : List Char} {c : Char} (hhead : part.head? = some c)
    (hc : isNameStart c = true) (hchars : ∀ d ∈ part, isNameChar d = true) : isPlainName part = true := by
  cases part with
  | nil => cases hhead
  | cons d ds =>
      obtain rfl := Option.some.inj hhead
      rw [isPlainName, hc, Bool.true_and, List.all_eq_true]
      exact (List.forall_mem_cons.mp hchars).2

/-- What the scanner reads as a name in one piece: its parts between dots are plain names, but for the first,
    which may be empty. -/
theorem parts_of_cutName {cs : List Char} (h : cutName cs = (cs, [])) :
    ∃ part parts, Text.splitAt '.' cs = part :: parts ∧ (∀ c ∈ part, isNameChar c = true) ∧
      (∀ p ∈ parts, isPlainName p = true) ∧ ∀ c, cs.head? = some c → c ≠ '.' → part.head? = some c := by
  induction cs with
  | nil => exact ⟨[], [], rfl, nofun, List.forall_mem_nil _, nofun⟩
  | cons c cs ih =>
      rw [cutName] at h
      split at h
      · next hc =>
          simp only [Prod.mk.injEq, List.cons.injEq, true_and] at h
          have hcs : cutName cs = (cs, []) := Prod.ext h.1 h.2
          obtain ⟨part, parts, hsplit, hchars, hparts, hhead⟩ := ih hcs
          rw [Text.splitAt, hsplit]
          by_cases hdot : c = '.'
          · -- The part behind a dot starts with a name start, so it is a plain name.
            subst hdot
            have hstart : cs.head?.any isNameStart = true := by simpa [isNameChar] using hc
            obtain ⟨d, hd, hd'⟩ := (Option.any_eq_true _ _).mp hstart
            have hplain := isPlainName_of_head (hhead d hd (isNameStart_excludes hd').2.1) hd' hchars
            exact ⟨[], part :: parts, if_pos rfl, nofun, List.forall_mem_cons.mpr ⟨hplain, hparts⟩,
              fun x hx hne => absurd (Option.some.inj hx).symm hne⟩
          · have hchar : isNameChar c = true := by simpa [hdot] using hc
            exact ⟨c :: part, parts, if_neg hdot, List.forall_mem_cons.mpr ⟨hchar, hchars⟩, hparts,
              fun x hx _ => hx⟩
      · cases congrArg Prod.fst h

/-- **The names are what the scanner reads as names.** -/
theorem isName_iff_leads {name : String} :
    isName name = true ↔ (⟨[], name.toList, .ident name⟩ : Word).Leads [] := by
  constructor
  · exact fun h => leads_dotted [] h trivial
  · intro h
    obtain ⟨⟨c, cs, hname, hstart⟩, -, hcut⟩ := h.name_form rfl
    rw [List.append_nil] at hcut
    obtain ⟨part, parts, hsplit, hchars, hparts, hhead⟩ := parts_of_cutName hcut
    rw [← List.all_eq_true] at hparts
    rcases hstart with hstart | ⟨rfl, hnext⟩
    · have hpart : part.head? = some c := by
        refine hhead c ?_ (isNameStart_excludes hstart).2.1
        show name.toList.head? = _
        rw [show name.toList = c :: cs from hname]
        rfl
      have hplain := isPlainName_of_head hpart hstart hchars
      rw [isName, hsplit]
      cases part with
      | nil => cases hpart
      | cons d ds =>
          show ((d :: ds) :: parts).all isPlainName = true
          rw [List.all_cons, hplain, hparts, Bool.and_self]
    · have hdot : Text.splitAt '.' name.toList = [] :: Text.splitAt '.' cs := by
        rw [show name.toList = '.' :: cs from hname]
        exact if_pos rfl
      rw [hdot] at hsplit
      obtain ⟨rfl, rfl⟩ := List.cons.inj hsplit
      rw [isName, hdot]
      show (!(Text.splitAt '.' cs).isEmpty && (Text.splitAt '.' cs).all isPlainName) = true
      rw [hparts, Bool.and_true, Bool.not_eq_true', List.isEmpty_eq_false_iff]
      exact Text.splitAt_ne_nil _ _

-- ── Strings ──────────────────────────────────────────────────────────────────────

/-- What is written for a character inside double quotes is one of its spellings. -/
theorem Kind.charSpelling_escaped (c : Char) : CharSpelling '"' c (Kind.escaped c) := by
  rw [Kind.escaped]
  by_cases hquote : c = '"'
  · subst hquote
    exact .escaped (.inl rfl)
  by_cases hbackslash : c = '\\'
  · subst hbackslash
    exact .escaped (.inr rfl)
  by_cases hfeed : c = '\n'
  · subst hfeed
    exact .named (by decide)
  by_cases hreturn : c = '\r'
  · subst hreturn
    exact .named (by decide)
  by_cases htab : c = '\t'
  · subst htab
    exact .named (by decide)
  rw [if_neg hquote, if_neg hbackslash, if_neg hfeed, if_neg hreturn, if_neg htab]
  exact .itself hquote hbackslash hfeed

/-- The scanner finds a string wherever it is written. -/
theorem leads_string (b : List Char) (value : String) (rest : List Char) :
    (⟨b, Kind.spelling (.str value), .str value⟩ : Word).Leads rest := by
  have hspells : List.Forall₂ (CharSpelling '"') value.toList (value.toList.map Kind.escaped) :=
    List.forall₂_map_right_iff.mpr (List.forall₂_same.mpr fun c _ => Kind.charSpelling_escaped c)
  have hleads := leads_literal b (.inl rfl) hspells rest
  rwa [literal, ← List.flatMap_def] at hleads

-- ── Tokens ───────────────────────────────────────────────────────────────────────

/-- A punctuation character that is a token wherever it stands. -/
def isSeparator (c : Char) : Bool :=
  isPunctuation c && !isNameStart c && c != '"' && c != '\'' && c != '.' && c != '/'

/-- Tokens that are written as the scanner reads them. -/
def Kind.IsSpelled : Kind → Prop
  | .ident name           => isName name = true
  | .int digits           => ∃ n : Nat, digits = n.repr
  | .str _                => True
  | .symbol c             => isSeparator c = true
  | .float _ | .comment _ => False

theorem Kind.isSpelled_ident {name : String} (h : isName name = true) : (Kind.ident name).IsSpelled := h

theorem Kind.isSpelled_symbol {c : Char} (h : isSeparator c = true) : (Kind.symbol c).IsSpelled := h

/-- **The scanner finds a token that is written in front of a space.** -/
theorem leads_spelled {k : Kind} (b : List Char) (h : k.IsSpelled) (hrest : AtSpace rest) :
    (⟨b, k.spelling, k⟩ : Word).Leads rest := by
  cases k with
  | ident name => exact leads_dotted b h hrest.nameEnds
  | int digits =>
      obtain ⟨n, rfl⟩ := h
      obtain ⟨c, cs, hcs, hdigits⟩ := digits_repr n
      have hleads := leads_digits b hdigits hrest.digitsEnd
      rwa [← hcs, String.ofList_toList] at hleads
  | str value => exact leads_string b value rest
  | symbol c =>
      have hsep : isSeparator c = true := h
      simp only [isSeparator, Bool.and_eq_true, Bool.not_eq_true', bne_iff_ne] at hsep
      obtain ⟨⟨⟨⟨⟨hpunct, hstart⟩, hdouble⟩, hsingle⟩, hdot⟩, hslash⟩ := hsep
      exact leads_symbol b rest hpunct hstart ⟨hdouble, hsingle⟩ hdot hslash
  | float digits => exact h.elim
  | comment text => exact h.elim

/-- Tokens as words of a text, the first at its start and each other one behind a space. -/
def spacedWords : List Kind → List Word
  | []      => []
  | k :: ks => ⟨[], k.spelling, k⟩ :: ks.map fun k => ⟨[' '], k.spelling, k⟩

theorem textOf_spacedWords (ks : List Kind) :
    textOf (spacedWords ks) = [' '].intercalate (ks.map Kind.spelling) := by
  cases ks with
  | nil => rfl
  | cons k ks =>
      rw [spacedWords, textOf_cons, List.map_cons]
      show k.spelling ++ _ = _
      induction ks generalizing k with
      | nil => exact (List.append_nil _).trans List.intercalate_singleton.symm
      | cons k' ks ih =>
          rw [List.map_cons, textOf_cons, List.map_cons, List.intercalate_cons_cons, ← ih k',
            List.append_assoc]
          rfl

/-- The scanner reads words behind spaces one after another. -/
theorem reads_spaced {ks : List Kind} (h : ∀ k ∈ ks, k.IsSpelled) :
    Reads [] (ks.map fun k => ⟨[' '], k.spelling, k⟩) ∧
      AtSpace (textOf (ks.map fun k => ⟨[' '], k.spelling, k⟩) ++ []) := by
  induction ks with
  | nil => exact ⟨trivial, nofun⟩
  | cons k ks ih =>
      obtain ⟨hk, hks⟩ := List.forall_mem_cons.mp h
      obtain ⟨hreads, hspace⟩ := ih hks
      refine ⟨⟨rfl, leads_spelled _ hk hspace, hreads⟩, ?_⟩
      intro c hc
      exact (Option.some.inj hc).symm

/-- **Tokens written with spaces between them are the tokens of the text.** -/
theorem tokenize_spaced {ks : List Kind} (h : ∀ k ∈ ks, k.IsSpelled) :
    ∃ ts, tokenize (Kind.spaced ks) = .ok ts ∧ ts.map Token.kind = ks := by
  have hreads : Reads [] (spacedWords ks) := by
    cases ks with
    | nil => trivial
    | cons k ks =>
        obtain ⟨hk, hks⟩ := List.forall_mem_cons.mp h
        obtain ⟨hreads, hspace⟩ := reads_spaced hks
        exact ⟨rfl, leads_spelled _ hk hspace, hreads⟩
  refine ⟨placed {} (spacedWords ks), ?_, ?_⟩
  · have hscan := scan_words {} hreads rfl
    rw [List.append_nil, textOf_spacedWords] at hscan
    rw [tokenize, Kind.spaced, String.toList_ofList, hscan]
  · rw [map_kind_placed]
    cases ks with
    | nil => rfl
    | cons k ks =>
        show k :: _ = _
        rw [List.map_map]
        exact congrArg (k :: ·) (List.map_id ks)

end FlagSchema.Token
