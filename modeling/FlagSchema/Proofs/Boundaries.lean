import Mathlib.Data.List.DropRight
import FlagSchema.Proofs.Words

/-!
# Where words end

What a word is depends on little of the text behind it: on the next character, and on the one after
that if the next is a dot. Words of some kinds depend on less, and words written anew need only a
suitable next character.

* **`SameFront`**: two texts that no word in front of them tells apart.
* **`Word.Leads.of_sameFront`**: the rule for all kinds.
* **`AtLineEnd`**, **`Word.Leads.of_lineEnd`**: a word of any kind ends where its line does, and so do words in a row
  (**`reads_of_lineEnd`**).
* **`NameEnds`**, **`Word.Leads.of_nameEnds`**: a name ends in front of every text that could not go on
  with it.
* **`Word.Leads.comment_anew`**: a comment written at the end of a line is read again as itself.
-/

namespace FlagSchema.Token

/-- Two texts start alike, as far as a word in front of them can tell. -/
structure SameFront (cs ds : List Char) : Prop where
  head : cs.head? = ds.head?
  next : cs.head? = some '.' → cs.tail.head? = ds.tail.head?

namespace SameFront

variable {cs ds : List Char}

theorem refl (cs : List Char) : SameFront cs cs := ⟨rfl, fun _ => rfl⟩

theorem head_append (h : cs.head? = ds.head?) (ws : List Char) :
    (ws ++ cs).head? = (ws ++ ds).head? := by
  cases ws with
  | nil => exact h
  | cons w ws => rfl

/-- The same characters in front of both. -/
theorem append (h : SameFront cs ds) (ws : List Char) : SameFront (ws ++ cs) (ws ++ ds) := by
  refine ⟨head_append h.head ws, ?_⟩
  intro hc
  cases ws with
  | nil => exact h.next hc
  | cons w ws => exact head_append h.head ws

/-- Something in front of both that is more than a dot is enough. -/
theorem of_common {ws : List Char} (hne : ws ≠ []) (hdot : ws ≠ ['.']) (cs ds : List Char) :
    SameFront (ws ++ cs) (ws ++ ds) := by
  cases ws with
  | nil => exact absurd rfl hne
  | cons w ws =>
      refine ⟨rfl, fun hw => ?_⟩
      cases hw
      cases ws with
      | nil => exact absurd rfl hdot
      | cons v ws => rfl

end SameFront

/-- A text that is at its end or at the end of a line. -/
def AtLineEnd (cs : List Char) : Prop := ∀ c, cs.head? = some c → c = '\n'

theorem atLineEnd_nil : AtLineEnd [] := nofun

theorem atLineEnd_cons (cs : List Char) : AtLineEnd ('\n' :: cs) :=
  fun _ hc => (Option.some.inj hc).symm

/-- The second of two texts starts with the same character as the first, or is at the end of a line. -/
def SameHead (cs ds : List Char) : Prop := cs.head? = ds.head? ∨ AtLineEnd ds

/-- The same characters in front of both. -/
theorem SameHead.append {cs ds : List Char} (h : SameHead cs ds) (ws : List Char) :
    SameHead (ws ++ cs) (ws ++ ds) := by
  cases ws with
  | nil => exact h
  | cons w ws => exact .inl rfl

/-- What holds of no first character of the first text, nor of a line feed, holds of none of the second. -/
theorem SameHead.forall_head {cs ds : List Char} (h : SameHead cs ds) {p : Char → Prop} (hp : p '\n')
    (hcs : ∀ c, cs.head? = some c → p c) : ∀ d, ds.head? = some d → p d := by
  intro d hd
  rcases h with h | h
  · exact hcs d (h.trans hd)
  · exact h d hd ▸ hp

-- ── Cuts ─────────────────────────────────────────────────────────────────────────

/-- A cut loses nothing, and takes the same front whatever follows, as long as the next character
    stays or the line ends. -/
structure LocalCut (f : List Char → List Char × List Char) : Prop where
  append : ∀ cs, (f cs).1 ++ (f cs).2 = cs
  stays  : ∀ ⦃ws cs ds⦄, f (ws ++ cs) = (ws, cs) → SameHead cs ds → f (ws ++ ds) = (ws, ds)

namespace LocalCut

variable {f g : List Char → List Char × List Char}

theorem append_of_eq (hf : LocalCut f) {text us rs : List Char} (h : f text = (us, rs)) :
    us ++ rs = text := by
  have := hf.append text
  rwa [h] at this

/-- The front of a cut, when more of the text behind it stays than one character. -/
theorem front (hf : LocalCut f) {text us vs cs ds : List Char} (h : f text = (us, vs ++ cs))
    (hhead : SameHead cs ds) : f (us ++ (vs ++ ds)) = (us, vs ++ ds) := by
  rw [← hf.append_of_eq h] at h
  exact hf.stays h (hhead.append vs)

theorem front_nil (hf : LocalCut f) {text us cs ds : List Char} (h : f text = (us, cs))
    (hhead : SameHead cs ds) : f (us ++ ds) = (us, ds) := by
  have hcut : f text = (us, [] ++ cs) := h
  exact hf.front hcut hhead

/-- One cut after another. -/
theorem both (hf : LocalCut f) (hg : LocalCut g) :
    LocalCut fun cs => ((f cs).1 ++ (g (f cs).2).1, (g (f cs).2).2) := by
  constructor
  · intro cs
    rw [List.append_assoc, hg.append, hf.append]
  · intro ws cs ds h hhead
    obtain ⟨us, rs, hfr⟩ : ∃ us rs, f (ws ++ cs) = (us, rs) := ⟨_, _, rfl⟩
    obtain ⟨vs, rs', hgr⟩ : ∃ vs rs', g rs = (vs, rs') := ⟨_, _, rfl⟩
    simp only [hfr, hgr, Prod.mk.injEq] at h
    obtain ⟨rfl, rfl⟩ := h
    rw [← hg.append_of_eq hgr] at hfr
    have h1 := hf.front hfr hhead
    have h2 := hg.front_nil hgr hhead
    simp only [List.append_assoc, h1, h2]

end LocalCut

/-- A cut by a predicate takes what satisfies it and stops in front of what does not. -/
theorem cut_eq_iff {p : Char → Bool} {ws cs : List Char} :
    cut p (ws ++ cs) = (ws, cs) ↔ (∀ c ∈ ws, p c = true) ∧ ∀ c, cs.head? = some c → p c = false := by
  induction ws with
  | nil =>
      cases cs with
      | nil => simp [cut]
      | cons c cs => cases hc : p c <;> simp [cut, hc]
  | cons w ws ih =>
      cases hw : p w with
      | false => simp [cut, hw]
      | true =>
          rw [show (cut p (w :: ws ++ cs) = (w :: ws, cs)) ↔ (cut p (ws ++ cs) = (ws, cs)) by
            simp [cut, hw], ih]
          simp [hw]

theorem localCut_cut {p : Char → Bool} (hp : p '\n' = false) : LocalCut (cut p) := by
  refine ⟨cut_append p, ?_⟩
  intro ws cs ds h hhead
  rw [cut_eq_iff] at h ⊢
  exact ⟨h.1, hhead.forall_head hp h.2⟩

theorem localCut_none : LocalCut cutNone := by
  refine ⟨cutNone_append, ?_⟩
  intro ws cs ds h _
  rw [cutNone, Prod.mk.injEq] at h
  rw [← h.1]
  rfl

theorem localCut_part {marks : List Char} {tail : List Char → List Char × List Char}
    (hmarks : marks.contains '\n' = false) (htail : LocalCut tail) : LocalCut (cutPart marks tail) := by
  refine ⟨cutPart_append marks htail.append, ?_⟩
  intro ws cs ds h hhead
  cases ws with
  | nil =>
      -- Nothing is cut off in front of a character that is no mark.
      have hcs : ∀ c, cs.head? = some c → marks.contains c = false := by
        intro c hc
        cases cs with
        | nil => cases hc
        | cons d cs =>
            cases hc
            rw [List.nil_append, cutPart] at h
            split at h
            · cases h
            · next hd => exact Bool.eq_false_iff.mpr hd
      cases ds with
      | nil => rfl
      | cons d ds =>
          have hd := hhead.forall_head hmarks hcs d rfl
          rw [List.nil_append, cutPart, if_neg (by rw [hd]; exact Bool.false_ne_true)]
  | cons w ws =>
      rw [List.cons_append, cutPart] at h ⊢
      split at h
      · next hw =>
          rw [if_pos hw]
          have htw : tail (ws ++ cs) = (ws, cs) := by
            rw [Prod.mk.injEq, List.cons.injEq] at h
            exact Prod.ext h.1.2 h.2
          rw [htail.stays htw hhead]
      · cases h

theorem localCut_signed : LocalCut cutSigned :=
  (localCut_part rfl localCut_none).both (localCut_cut rfl)

-- ── Numbers ──────────────────────────────────────────────────────────────────────

/-- A number in base ten is the same in front of every text with the same first character, and at the end
    of a line. -/
theorem decimal_stays {b : Bool} {ws cs ds : List Char}
    (h : cutNumber.decimal (ws ++ cs) = (b, ws, cs)) (hhead : SameHead cs ds) :
    cutNumber.decimal (ws ++ ds) = (b, ws, ds) := by
  have hwhole : LocalCut (cut Char.isDigit) := localCut_cut rfl
  have hfraction : LocalCut (cutPart ['.'] (cut Char.isDigit)) := localCut_part rfl hwhole
  have hexponent : LocalCut (cutPart ['e', 'E'] cutSigned) := localCut_part rfl localCut_signed
  have hglued : LocalCut (cut isNameChar) := localCut_cut rfl
  obtain ⟨whole, r1, h1⟩ : ∃ u r, cut Char.isDigit (ws ++ cs) = (u, r) := ⟨_, _, rfl⟩
  obtain ⟨fraction, r2, h2⟩ : ∃ u r, cutPart ['.'] (cut Char.isDigit) r1 = (u, r) := ⟨_, _, rfl⟩
  obtain ⟨exponent, r3, h3⟩ : ∃ u r, cutPart ['e', 'E'] cutSigned r2 = (u, r) := ⟨_, _, rfl⟩
  simp only [cutNumber.decimal, h1, h2, h3, Prod.mk.injEq] at h
  generalize hmarks : (if (!(fraction.isEmpty && exponent.isEmpty)) = true then ['f', 'F'] else [])
    = marks at h
  have hnoBreak : marks.contains '\n' = false := by
    rw [← hmarks]
    split <;> rfl
  have hsuffix := localCut_part hnoBreak localCut_none
  obtain ⟨suffix, r4, h4⟩ : ∃ u r, cutPart marks cutNone r3 = (u, r) := ⟨_, _, rfl⟩
  obtain ⟨glued, r5, h5⟩ : ∃ u r, cut isNameChar r4 = (u, r) := ⟨_, _, rfl⟩
  simp only [h4, h5] at h
  obtain ⟨hb, rfl, rfl⟩ := h
  -- What each part leaves is made of the parts after it and the rest.
  rw [← hglued.append_of_eq h5] at h4
  rw [← hsuffix.append_of_eq h4, ← List.append_assoc] at h3
  rw [← hexponent.append_of_eq h3, ← List.append_assoc] at h2
  rw [← hfraction.append_of_eq h2, ← List.append_assoc] at h1
  have k1 := hwhole.front h1 hhead
  have k2 := hfraction.front h2 hhead
  have k3 := hexponent.front h3 hhead
  have k4 := hsuffix.front h4 hhead
  have k5 := hglued.front_nil h5 hhead
  simp only [List.append_assoc] at k1 k2 k3 k4 ⊢
  simp only [cutNumber.decimal, k1, k2, k3, hmarks, k4, k5, List.append_assoc]
  rw [hb]

/-- A number that starts with `0x` is in base sixteen. -/
theorem cutNumber_hex {x : Char} (hx : x = 'x' ∨ x = 'X') (cs : List Char) :
    cutNumber ('0' :: x :: cs)
      = (false, '0' :: x :: (cut isHexDigit cs).1, (cut isHexDigit cs).2) := by
  rw [cutNumber]
  rcases hx with rfl | rfl <;> rfl

/-- Any other number is in base ten. -/
theorem cutNumber_decimal {cs : List Char}
    (h : ∀ x tail, cs = '0' :: x :: tail → ¬ (x = 'x' ∨ x = 'X')) :
    cutNumber cs = cutNumber.decimal cs := by
  unfold cutNumber
  split
  · next x tail => 
      have := h x tail rfl
      simp only [not_or] at this
      simp [this.1, this.2]
  · rfl

/-- A number is the same in front of every text with the same first character, and at the end of a line. -/
theorem number_stays {b : Bool} {w : Char} {ws cs ds : List Char}
    (h : cutNumber (w :: ws ++ cs) = (b, w :: ws, cs)) (hhead : SameHead cs ds) :
    cutNumber (w :: ws ++ ds) = (b, w :: ws, ds) := by
  by_cases hhex : w = '0' ∧ ∃ x, (ws ++ cs).head? = some x ∧ (x = 'x' ∨ x = 'X')
  · obtain ⟨rfl, x, hx, hxX⟩ := hhex
    cases ws with
    | nil =>
        -- The mark of base sixteen would belong to the number.
        cases cs with
        | nil => cases hx
        | cons c cs =>
            cases hx
            rw [List.cons_append, List.nil_append, cutNumber_hex hxX] at h
            simp at h
    | cons y ws =>
        cases hx
        rw [List.cons_append, List.cons_append, cutNumber_hex hxX] at h ⊢
        simp only [Prod.mk.injEq, List.cons.injEq, true_and] at h
        have hcut := (localCut_cut (p := isHexDigit) rfl).stays (Prod.ext h.2.1 h.2.2) hhead
        rw [hcut, h.1]
  · have hdecimal : ∀ rest : List Char, SameHead cs rest →
        cutNumber (w :: ws ++ rest) = cutNumber.decimal (w :: ws ++ rest) := by
      intro rest hrest
      refine cutNumber_decimal ?_
      intro x tail heq
      rw [List.cons_append, List.cons.injEq] at heq
      obtain ⟨rfl, htail⟩ := heq
      have hnot : ∀ y, (ws ++ cs).head? = some y → ¬ (y = 'x' ∨ y = 'X') :=
        fun y hy hxX => hhex ⟨rfl, y, hy, hxX⟩
      exact (hrest.append ws).forall_head (by decide) hnot x (by rw [htail]; rfl)
    rw [hdecimal cs (.inl rfl)] at h
    rw [hdecimal ds hhead]
    exact decimal_stays h hhead

/-- A dot alone is no number in front of a digit. -/
theorem isDigit_eq_false_of_cutNumber {b : Bool} {c : Char} {cs : List Char}
    (h : cutNumber ('.' :: c :: cs) = (b, ['.'], c :: cs)) : c.isDigit = false := by
  cases hc : c.isDigit with
  | false => rfl
  | true =>
      rw [cutNumber_decimal (fun _ _ heq => absurd (List.cons.inj heq).1 (by decide))] at h
      simp [cutNumber.decimal, cut, cutPart, hc] at h

-- ── Names ────────────────────────────────────────────────────────────────────────

/-- A text that could not go on with a name in front of it. -/
def NameEnds : List Char → Prop
  | []      => True
  | c :: cs => isNameChar c = false ∧ ¬ (c = '.' ∧ cs.head?.any isNameStart = true)

theorem nameEnds_iff {cs : List Char} : NameEnds cs ↔ cutName cs = ([], cs) := by
  cases cs with
  | nil => exact ⟨fun _ => rfl, fun _ => trivial⟩
  | cons c cs =>
      rw [cutName]
      by_cases hc : (isNameChar c || (c == '.' && cs.head?.any isNameStart)) = true
      · rw [if_pos hc]
        simp only [Bool.or_eq_true, Bool.and_eq_true, beq_iff_eq] at hc
        constructor
        · rintro ⟨h1, h2⟩
          rcases hc with hc | hc
          · rw [h1] at hc; cases hc
          · exact absurd hc h2
        · intro h; cases h
      · rw [if_neg hc]
        simp only [Bool.or_eq_true, Bool.and_eq_true, beq_iff_eq, not_or, Bool.not_eq_true] at hc
        exact ⟨fun _ => rfl, fun _ => hc⟩

theorem NameEnds.of_sameFront {cs ds : List Char} (h : NameEnds cs) (hf : SameFront cs ds) :
    NameEnds ds := by
  cases ds with
  | nil => trivial
  | cons d ds =>
      cases cs with
      | nil => cases hf.head
      | cons c cs =>
          cases hf.head
          refine ⟨h.1, ?_⟩
          rintro ⟨rfl, hd⟩
          have hnext : cs.head? = ds.head? := hf.next rfl
          exact h.2 ⟨rfl, by rw [hnext]; exact hd⟩

/-- No name goes on at the end of a line. -/
theorem nameEnds_of_lineEnd {ds : List Char} (h : AtLineEnd ds) : NameEnds ds := by
  cases ds with
  | nil => trivial
  | cons d ds =>
      obtain rfl := h d rfl
      exact ⟨rfl, fun hdot => absurd hdot.1 (by decide)⟩

/-- A name that cannot go on in front of a text cannot where the line ends in it. -/
theorem NameEnds.of_lineEnd {us cs ds : List Char} (h : NameEnds (us ++ cs)) (hd : AtLineEnd ds) :
    NameEnds (us ++ ds) := by
  cases us with
  | nil => exact nameEnds_of_lineEnd hd
  | cons u us =>
      refine ⟨h.1, fun hdot => ?_⟩
      cases us with
      | cons v us => exact h.2 hdot
      -- No name goes on behind a dot there.
      | nil =>
          obtain ⟨-, hstart⟩ := hdot
          cases ds with
          | nil => cases hstart
          | cons d ds => obtain rfl := hd d rfl; cases hstart

/-- A name stays in front of every text that could not go on with it. -/
theorem name_stays {ws cs ds : List Char} (h : cutName (ws ++ cs) = (ws, cs)) (hd : NameEnds ds) :
    cutName (ws ++ ds) = (ws, ds) := by
  induction ws with
  | nil => exact nameEnds_iff.mp hd
  | cons w ws ih =>
      rw [List.cons_append, cutName] at h ⊢
      by_cases hw : (isNameChar w || (w == '.' && (ws ++ cs).head?.any isNameStart)) = true
      · rw [if_pos hw] at h
        simp only [Prod.mk.injEq, List.cons.injEq, true_and] at h
        have htail : cutName (ws ++ cs) = (ws, cs) := Prod.ext h.1 h.2
        have hw' : (isNameChar w || (w == '.' && (ws ++ ds).head?.any isNameStart)) = true := by
          cases ws with
          | cons x ws => exact hw
          | nil =>
              -- A dot at the end would be followed by the start of a name, which the cut would take.
              simp only [Bool.or_eq_true, Bool.and_eq_true] at hw ⊢
              rcases hw with hw | hw
              · exact Or.inl hw
              · exfalso
                have hends := nameEnds_iff.mpr htail
                cases cs with
                | nil => exact Bool.false_ne_true hw.2
                | cons c cs =>
                    have hc := isNameChar_of_isNameStart (c := c) (by simpa using hw.2)
                    rw [hends.1] at hc
                    cases hc
        rw [if_pos hw', ih htail]
      · rw [if_neg hw] at h
        cases h

theorem nameEnds_of_cutName {ws cs : List Char} (h : cutName (ws ++ cs) = (ws, cs)) :
    NameEnds cs := by
  induction ws with
  | nil => exact nameEnds_iff.mpr h
  | cons w ws ih =>
      rw [List.cons_append, cutName] at h
      split at h
      · simp only [Prod.mk.injEq, List.cons.injEq, true_and] at h
        exact ih (Prod.ext h.1 h.2)
      · cases h

/-- A text that starts with a name. -/
def NameHead (cs : List Char) : Prop :=
  ∃ c ds, cs = c :: ds ∧ (isNameStart c = true ∨ (c = '.' ∧ ds.head?.any isNameStart = true))

theorem NameHead.not_nameEnds {cs : List Char} (h : NameHead cs) : ¬ NameEnds cs := by
  obtain ⟨c, ds, rfl, h | h⟩ := h
  · intro hends
    rw [NameEnds, isNameChar_of_isNameStart h] at hends
    cases hends.1
  · exact fun hends => hends.2 h

theorem NameHead.append {cs : List Char} (h : NameHead cs) (ds : List Char) : NameHead (cs ++ ds) := by
  obtain ⟨c, xs, rfl, h | ⟨rfl, h⟩⟩ := h
  · exact ⟨c, xs ++ ds, rfl, .inl h⟩
  · refine ⟨'.', xs ++ ds, rfl, .inr ⟨rfl, ?_⟩⟩
    cases xs with
    | nil => cases h
    | cons x xs => exact h

-- ── Comments and strings ─────────────────────────────────────────────────────────

/-- The end of a block comment holds its closing marker. -/
theorem block_ne_nil {cs front back : List Char} (h : cutBlock? cs = some (front, back)) :
    front ≠ [] := by
  induction cs using cutBlock?.induct generalizing front back with
  | case1 cs => cases h; simp
  | case2 c cs hc _ =>
      rw [cutBlock?.eq_2 c cs hc] at h
      obtain ⟨⟨f, b⟩, -, h⟩ := Option.map_eq_some_iff.1 h
      cases h
      simp
  | case3 => cases h

/-- A block comment ends by itself. -/
theorem block_stays {ws cs : List Char} (h : cutBlock? (ws ++ cs) = some (ws, cs))
    (ds : List Char) : cutBlock? (ws ++ ds) = some (ws, ds) := by
  induction ws with
  | nil => exact absurd rfl (block_ne_nil h)
  | cons w ws ih =>
      by_cases hclose : w = '*' ∧ ∃ tail, ws = '/' :: tail
      · obtain ⟨rfl, tail, rfl⟩ := hclose
        simp only [List.cons_append, cutBlock?, Option.some.injEq, Prod.mk.injEq,
          List.cons.injEq, true_and] at h
        obtain ⟨rfl, -⟩ := h
        rfl
      · cases ws with
        | nil =>
            -- The closing marker has two characters.
            exfalso
            by_cases hw : w = '*' ∧ ∃ tail, cs = '/' :: tail
            · obtain ⟨rfl, tail, rfl⟩ := hw
              simp [cutBlock?] at h
            · rw [List.cons_append, List.nil_append, cutBlock?.eq_2 w cs
                (fun tail h1 h2 => hw ⟨h1, tail, h2⟩)] at h
              obtain ⟨⟨f, b⟩, hfb, h⟩ := Option.map_eq_some_iff.1 h
              simp only [Prod.mk.injEq, List.cons.injEq, true_and] at h
              exact block_ne_nil hfb h.1
        | cons x ws =>
            have hstep : ∀ rest : List Char, cutBlock? (w :: (x :: ws ++ rest))
                = (cutBlock? (x :: ws ++ rest)).map fun y => (w :: y.1, y.2) := by
              intro rest
              refine cutBlock?.eq_2 w (x :: ws ++ rest) ?_
              intro tail h1 h2
              rw [List.cons_append, List.cons.injEq] at h2
              exact hclose ⟨h1, ws, by rw [h2.1]⟩
            rw [List.cons_append, hstep] at h ⊢
            obtain ⟨⟨f, b⟩, hfb, h⟩ := Option.map_eq_some_iff.1 h
            simp only [Prod.mk.injEq, List.cons.injEq, true_and] at h
            obtain ⟨rfl, rfl⟩ := h
            rw [ih hfb]
            rfl

/-- At most so many digits are the same in front of every text with the same first character. -/
theorem digits_stays {base limit n v : Nat} {ws cs ds : List Char}
    (h : cutDigits base limit n (ws ++ cs) = (v, ws, cs)) (hhead : cs.head? = ds.head?) :
    cutDigits base limit n (ws ++ ds) = (v, ws, ds) := by
  induction limit generalizing n ws with
  | zero =>
      simp only [cutDigits, Prod.mk.injEq] at h
      obtain ⟨rfl, rfl, -⟩ := h
      rfl
  | succ limit ih =>
      cases ws with
      | nil =>
          cases cs with
          | nil =>
              cases ds with
              | nil => exact h
              | cons d ds => cases hhead
          | cons c cs =>
              cases ds with
              | nil => cases hhead
              | cons d ds =>
                  cases hhead
                  rw [List.nil_append, cutDigits] at h ⊢
                  split at h
                  · simp only [Prod.mk.injEq] at h
                    rw [h.1]
                  · cases h
      | cons w ws =>
          rw [List.cons_append, cutDigits] at h ⊢
          split at h
          · cases h
          · next d hd =>
              simp only [Prod.mk.injEq, List.cons.injEq, true_and] at h
              have hrest := ih (Prod.ext h.1 (Prod.ext h.2.1 h.2.2))
              simp only [hrest]

/-- An escape is the same in front of every text with the same first character. -/
theorem escape_stays {c : Char} {ws cs ds : List Char}
    (h : cutEscape? (ws ++ cs) = some (c, ws, cs)) (hhead : cs.head? = ds.head?) :
    cutEscape? (ws ++ ds) = some (c, ws, ds) := by
  cases ws with
  | nil => exact absurd rfl (cutEscape?_append h).2
  | cons w ws =>
      simp only [List.cons_append, cutEscape?] at h ⊢
      split at h
      · simp only [Option.some.injEq, Prod.mk.injEq, List.cons.injEq, true_and] at h
        obtain ⟨rfl, rfl, -⟩ := h
        simp
      · next hnamed =>
          split at h
          · next hx =>
              simp only [Option.some.injEq, Prod.mk.injEq, List.cons.injEq, true_and] at h
              have hd := digits_stays (Prod.ext rfl (Prod.ext h.2.1 h.2.2)) hhead
              rw [if_pos hx, hd, ← h.1]
          · next hx =>
              rw [if_neg hx]
              split at h
              · next d _ =>
                  simp only [Option.some.injEq, Prod.mk.injEq, List.cons.injEq, true_and] at h
                  have hd := digits_stays (Prod.ext rfl (Prod.ext h.2.1 h.2.2)) hhead
                  simp only [hd, ← h.1]
              · simp only [Option.some.injEq, Prod.mk.injEq, List.cons.injEq, true_and] at h
                obtain ⟨rfl, rfl, -⟩ := h
                simp

/-- A string goes on behind an escape. -/
theorem cutString?_escape {quote c : Char} {cs spelling rest : List Char}
    (hquote : quote ≠ '\\') (h : cutEscape? cs = some (c, spelling, rest)) :
    cutString? quote ('\\' :: cs)
      = (cutString? quote rest).map fun (values, front, back) =>
          (c :: values, '\\' :: spelling ++ front, back) := by
  rw [cutString?, if_neg (by decide), if_neg (fun hq => hquote hq.symm), if_pos rfl]
  split
  · next heq => rw [h] at heq; cases heq
  · next heq => rw [h] at heq; cases heq; rfl

/-- A string goes on behind a character that stands for itself. -/
theorem cutString?_plain {quote c : Char} (cs : List Char) (hn : c ≠ '\n') (hq : c ≠ quote)
    (hb : c ≠ '\\') :
    cutString? quote (c :: cs)
      = (cutString? quote cs).map fun (values, front, back) =>
          (c :: values, c :: front, back) := by
  rw [cutString?, if_neg hn, if_neg hq, if_neg hb]

/-- The rest of a string holds its closing quote. -/
theorem string_ne_nil {quote : Char} {cs value front back : List Char}
    (h : cutString? quote cs = some (value, front, back)) : front ≠ [] := by
  fun_induction cutString? quote cs with
  | case1 => cases h
  | case2 => cases h
  | case3 => cases h; simp
  | case4 => cases h
  | case5 => 
      obtain ⟨⟨v, f, b⟩, -, h⟩ := Option.map_eq_some_iff.1 h
      cases h
      simp
  | case6 =>
      obtain ⟨⟨v, f, b⟩, -, h⟩ := Option.map_eq_some_iff.1 h
      cases h
      simp

/-- A string ends by itself. -/
theorem string_stays {quote : Char} {value ws cs : List Char}
    (h : cutString? quote (ws ++ cs) = some (value, ws, cs)) (ds : List Char) :
    cutString? quote (ws ++ ds) = some (value, ws, ds) := by
  generalize htext : ws ++ cs = text at h
  fun_induction cutString? quote text generalizing value ws with
  | case1 => cases h
  | case2 => cases h
  | case3 rest hn =>
      cases h
      rw [List.cons_append, cutString?, if_neg hn, if_pos rfl]
      rfl
  | case4 => cases h
  | case5 rest c spelling rest' hesc hle hn hq ih =>
      obtain ⟨⟨v, front, back⟩, hrest, h⟩ := Option.map_eq_some_iff.1 h
      simp only [Prod.mk.injEq] at h
      obtain ⟨rfl, rfl, rfl⟩ := h
      have hstays := ih (cutString?_append hrest) hrest
      rw [← (cutEscape?_append hesc).1, ← cutString?_append hrest] at hesc
      have hhead : (front ++ back).head? = (front ++ ds).head? := by
        cases front with
        | nil => exact absurd rfl (string_ne_nil hrest)
        | cons x xs => rfl
      have hesc' := escape_stays hesc hhead
      rw [List.append_assoc, List.cons_append, cutString?_escape (fun h => hq h.symm) hesc', hstays]
      rfl
  | case6 c rest hn hq hb ih =>
      obtain ⟨⟨v, front, back⟩, hrest, h⟩ := Option.map_eq_some_iff.1 h
      simp only [Prod.mk.injEq] at h
      obtain ⟨rfl, rfl, rfl⟩ := h
      have hstays := ih (cutString?_append hrest) hrest
      rw [List.cons_append, cutString?_plain _ hn hq hb, hstays]
      rfl

-- ── The forms of a word ──────────────────────────────────────────────────────────

/-- How the scanner comes to find a word in front of a rest: the rule it follows, and the cut it makes. -/
inductive Form (w : Word) (rest : List Char) : Prop where
  | lineComment (cs : List Char) (spelling : w.spelling = '/' :: '/' :: cs)
      (kind : w.kind = .comment (String.ofList (Text.trimEnd w.spelling)))
      (ends : cut (· ≠ '\n') (w.spelling ++ rest) = (w.spelling, rest))
  | blockComment (cs : List Char) (spelling : w.spelling = '/' :: '*' :: cs)
      (kind : w.kind = .comment (String.ofList w.spelling))
      (ends : cutBlock? (cs ++ rest) = some (cs, rest))
  | number (c : Char) (cs : List Char) (isFloat : Bool) (spelling : w.spelling = c :: cs)
      (start : c.isDigit ∨ (c = '.' ∧ (cs ++ rest).head?.any Char.isDigit))
      (kind : w.kind =
        if isFloat then .float (String.ofList w.spelling) else .int (String.ofList w.spelling))
      (ends : cutNumber (w.spelling ++ rest) = (isFloat, w.spelling, rest))
  | name (c : Char) (cs : List Char) (spelling : w.spelling = c :: cs)
      (start : isNameStart c ∨ (c = '.' ∧ (cs ++ rest).head?.any isNameStart))
      (kind : w.kind = .ident (String.ofList w.spelling))
      (ends : cutName (w.spelling ++ rest) = (w.spelling, rest))
  | string (quote : Char) (cs value : List Char) (spelling : w.spelling = quote :: cs)
      (start : quote = '"' ∨ quote = '\'')
      (kind : w.kind = .str (String.ofList value))
      (ends : cutString? quote (cs ++ rest) = some (value, cs, rest))
  | symbol (c : Char) (spelling : w.spelling = [c]) (kind : w.kind = .symbol c)
      (start : isPunctuation c ∧ isNameStart c = false ∧ c ≠ '"' ∧ c ≠ '\'')
      (slash : c = '/' → rest.head? ≠ some '/' ∧ rest.head? ≠ some '*')
      (dot : c = '.' → rest.head?.any Char.isDigit = false ∧ rest.head?.any isNameStart = false)

/-- A name start is no digit, no dot, no slash. -/
theorem isNameStart_excludes {c : Char} (h : isNameStart c = true) :
    c.isDigit = false ∧ c ≠ '.' ∧ c ≠ '/' := by
  refine ⟨?_, by rintro rfl; revert h; decide, by rintro rfl; revert h; decide⟩
  simp only [isNameStart, Bool.or_eq_true, beq_iff_eq] at h
  rcases h with h | rfl
  · rw [Bool.eq_false_iff]
    intro hdigit
    have hletter := isAlpha_bounds h
    have hbounds := isDigit_bounds hdigit
    omega
  · decide

/-- A punctuation character is no digit. -/
theorem isDigit_eq_false_of_isPunctuation {c : Char} (h : isPunctuation c = true) :
    c.isDigit = false := by
  simp only [isPunctuation, Char.isAlphanum, Bool.and_eq_true, Bool.not_eq_true',
    Bool.or_eq_false_iff] at h
  exact h.2.2

/-- Every word the scanner finds has one of the forms. -/
theorem Word.Leads.form {w : Word} {rest : List Char} (h : w.Leads rest) : Form w rest := by
  obtain ⟨c, cs, hw, hl⟩ := h
  have htext : c :: (cs ++ rest) = w.spelling ++ rest := by rw [hw]; rfl
  unfold Lexeme.first at hl
  split at hl
  · next hc =>
      simp only [Lexeme.lineComment, Except.ok.injEq, Lexeme.mk.injEq] at hl
      obtain ⟨hkind, hspelling, hrest⟩ := hl
      rw [htext] at hspelling hrest
      have hends : cut (· ≠ '\n') (w.spelling ++ rest) = (w.spelling, rest) := Prod.ext hspelling hrest
      obtain ⟨rfl, hslash⟩ := hc
      cases cs with
      | nil =>
          -- The second slash is no end of a line.
          exfalso
          rw [hw, cut_eq_iff] at hends
          have := hends.2 '/' hslash
          revert this
          decide
      | cons x cs =>
          cases hslash
          refine .lineComment cs hw ?_ hends
          rw [← hkind, htext, hspelling]
  split at hl
  · next hc =>
      obtain ⟨rfl, hstar⟩ := hc
      cases hb : cutBlock? (cs ++ rest).tail with
      | none => simp [Lexeme.blockComment?, hb] at hl
      | some parts =>
          obtain ⟨front, back⟩ := parts
          simp only [Lexeme.blockComment?, hb, Option.map_some, Option.elim_some, Except.ok.injEq,
            Lexeme.mk.injEq] at hl
          obtain ⟨hkind, hspelling, rfl⟩ := hl
          rw [hw, List.cons.injEq] at hspelling
          obtain ⟨-, rfl⟩ := hspelling
          rw [List.cons_append, List.tail_cons] at hb
          exact .blockComment front hw (by rw [← hkind, hw]) hb
  split at hl
  · next hc =>
      simp only [Lexeme.number, Except.ok.injEq, Lexeme.mk.injEq] at hl
      obtain ⟨hkind, hspelling, hrest⟩ := hl
      rw [htext] at hspelling hrest hkind
      refine .number c cs (cutNumber (w.spelling ++ rest)).1 hw hc ?_
        (Prod.ext rfl (Prod.ext hspelling hrest))
      rw [← hkind, hspelling]
  split at hl
  · next hc =>
      simp only [Lexeme.name, Except.ok.injEq, Lexeme.mk.injEq] at hl
      obtain ⟨hkind, hspelling, hrest⟩ := hl
      rw [htext] at hspelling hrest hkind
      refine .name c cs hw hc ?_ (Prod.ext hspelling hrest)
      rw [← hkind, hspelling]
  split at hl
  · next hc =>
      cases hs : cutString? c (cs ++ rest) with
      | none => simp [Lexeme.string?, hs] at hl
      | some parts =>
          obtain ⟨value, front, back⟩ := parts
          simp only [Lexeme.string?, hs, Option.map_some, Option.elim_some, Except.ok.injEq,
            Lexeme.mk.injEq] at hl
          obtain ⟨hkind, hspelling, rfl⟩ := hl
          rw [hw, List.cons.injEq] at hspelling
          obtain ⟨-, rfl⟩ := hspelling
          exact .string c front value hw hc hkind.symm hs
  split at hl
  · next h1 h2 h3 h4 h5 h6 =>
      simp only [Except.ok.injEq, Lexeme.mk.injEq] at hl
      obtain ⟨hkind, hspelling, hrest⟩ := hl
      rw [hw, List.cons.injEq] at hspelling
      obtain ⟨-, rfl⟩ := hspelling
      rw [List.nil_append] at h1 h2 h3 h4
      simp only [not_or, not_and, Bool.not_eq_true] at h1 h2 h3 h4 h5
      exact .symbol c hw hkind.symm ⟨h6, h4.1, h5⟩ (fun hc => ⟨h1 hc, h2 hc⟩)
        (fun hc => ⟨h3.2 hc, h4.2 hc⟩)
  · cases hl

/-- The scanner finds every word that has one of the forms. -/
theorem Form.leads {w : Word} {rest : List Char} (h : Form w rest) : w.Leads rest := by
  cases h with
  | lineComment cs spelling kind ends =>
      refine ⟨'/', '/' :: cs, spelling, ?_⟩
      rw [Lexeme.first, if_pos ⟨rfl, rfl⟩, Lexeme.lineComment]
      rw [show '/' :: ('/' :: cs ++ rest) = w.spelling ++ rest by rw [spelling]; rfl, ends, kind]
  | blockComment cs spelling kind ends =>
      refine ⟨'/', '*' :: cs, spelling, ?_⟩
      rw [Lexeme.first, if_neg (by simp), if_pos ⟨rfl, rfl⟩, List.cons_append, List.tail_cons,
        Lexeme.blockComment?, ends]
      simp [kind, spelling]
  | number c cs isFloat spelling start kind ends =>
      refine ⟨c, cs, spelling, ?_⟩
      have hslash : c ≠ '/' := by
        rintro rfl
        rcases start with h | h
        · revert h; decide
        · revert h; simp
      rw [Lexeme.first, if_neg (fun h => hslash h.1), if_neg (fun h => hslash h.1), if_pos start,
        Lexeme.number]
      rw [show c :: (cs ++ rest) = w.spelling ++ rest by rw [spelling]; rfl, ends, kind]
  | name c cs spelling start kind ends =>
      refine ⟨c, cs, spelling, ?_⟩
      have hslash : c ≠ '/' := by
        rcases start with h | h
        · exact (isNameStart_excludes h).2.2
        · rw [h.1]; decide
      have hdigit : ¬ (c.isDigit = true ∨ (c = '.' ∧ (cs ++ rest).head?.any Char.isDigit = true)) := by
        rcases start with h | ⟨rfl, h⟩
        · have hx := isNameStart_excludes h
          simp [hx.1, hx.2.1]
        · rintro (h' | ⟨-, h'⟩)
          · revert h'; decide
          · cases hhead : (cs ++ rest).head? with
            | none => rw [hhead] at h; cases h
            | some x =>
                rw [hhead] at h h'
                have hx := isNameStart_excludes (c := x) h
                rw [show (some x).any Char.isDigit = x.isDigit from rfl, hx.1] at h'
                cases h'
      rw [Lexeme.first, if_neg (fun h => hslash h.1), if_neg (fun h => hslash h.1), if_neg hdigit,
        if_pos start, Lexeme.name]
      rw [show c :: (cs ++ rest) = w.spelling ++ rest by rw [spelling]; rfl, ends, kind]
  | string quote cs value spelling start kind ends =>
      refine ⟨quote, cs, spelling, ?_⟩
      have hother : quote ≠ '/' ∧ quote ≠ '.' ∧ quote.isDigit = false ∧ isNameStart quote = false := by
        rcases start with rfl | rfl <;> decide
      rw [Lexeme.first, if_neg (fun h => hother.1 h.1), if_neg (fun h => hother.1 h.1),
        if_neg (by simp [hother]), if_neg (by simp [hother]), if_pos start, Lexeme.string?, ends]
      simp [kind, spelling]
  | symbol c spelling kind start slash dot =>
      refine ⟨c, [], spelling, ?_⟩
      obtain ⟨hpunct, hname, hquote⟩ := start
      have hdigit := isDigit_eq_false_of_isPunctuation hpunct
      rw [Lexeme.first, List.nil_append, if_neg (fun h => (slash h.1).1 h.2),
        if_neg (fun h => (slash h.1).2 h.2), if_neg ?_, if_neg ?_, if_neg (by simp [hquote]),
        if_pos hpunct, kind, spelling]
      · rintro (h | ⟨h, h'⟩)
        · rw [hname] at h; cases h
        · rw [(dot h).2] at h'; cases h'
      · rintro (h | ⟨h, h'⟩)
        · rw [hdigit] at h; cases h
        · rw [(dot h).1] at h'; cases h'

/-- A word depends on the first character of its rest, and on whether a name could not go on there. -/
theorem Word.Leads.of_head {w : Word} {cs ds : List Char} (h : w.Leads cs) (hhead : cs.head? = ds.head?)
    (hname : NameEnds cs → NameEnds ds) : w.Leads ds := by
  refine Form.leads ?_
  cases h.form with
  | lineComment xs spelling kind ends =>
      exact .lineComment xs spelling kind ((localCut_cut rfl).stays ends (.inl hhead))
  | blockComment xs spelling kind ends =>
      exact .blockComment xs spelling kind (block_stays ends ds)
  | number c xs isFloat spelling start kind ends =>
      rw [SameFront.head_append hhead xs] at start
      rw [spelling] at ends
      refine .number c xs isFloat spelling start kind ?_
      rw [spelling]
      exact number_stays ends (.inl hhead)
  | name c xs spelling start kind ends =>
      rw [SameFront.head_append hhead xs] at start
      exact .name c xs spelling start kind (name_stays ends (hname (nameEnds_of_cutName ends)))
  | string quote xs value spelling start kind ends =>
      exact .string quote xs value spelling start kind (string_stays ends ds)
  | symbol c spelling kind start slash dot =>
      rw [hhead] at slash dot
      exact .symbol c spelling kind start slash dot

/-- **A word depends on what is in front of its rest alone.** -/
theorem Word.Leads.of_sameFront {w : Word} {cs ds : List Char} (h : w.Leads cs)
    (hf : SameFront cs ds) : w.Leads ds :=
  h.of_head hf.head fun hname => hname.of_sameFront hf

-- ── Words that depend on less ────────────────────────────────────────────────────

namespace Word.Leads

variable {w : Word} {cs : List Char}

/-- What a name is made of. -/
theorem name_form {name : String} (h : w.Leads cs) (hk : w.kind = .ident name) :
    NameHead w.spelling ∧ name.toList = w.spelling ∧ cutName (w.spelling ++ cs) = (w.spelling, cs) := by
  cases h.form with
  | name c xs spelling start kind ends =>
      rw [hk, Kind.ident.injEq] at kind
      refine ⟨⟨c, xs, spelling, ?_⟩, by rw [kind, String.toList_ofList], ends⟩
      rcases start with start | ⟨hdot, hnext⟩
      · exact .inl start
      -- The character behind the dot is one of the name.
      · refine .inr ⟨hdot, ?_⟩
        cases xs with
        | cons x xs => exact hnext
        | nil =>
            have hends := nameEnds_of_cutName ends
            cases cs with
            | nil => cases hnext
            | cons d cs =>
                have hd := isNameChar_of_isNameStart (c := d) (by simpa using hnext)
                rw [hends.1] at hd
                cases hd
  | lineComment xs spelling kind ends => rw [hk] at kind; cases kind
  | blockComment xs spelling kind ends => rw [hk] at kind; cases kind
  | number c xs isFloat spelling start kind ends => rw [hk] at kind; cases isFloat <;> cases kind
  | string quote xs value spelling start kind ends => rw [hk] at kind; cases kind
  | symbol c spelling kind start slash dot => rw [hk] at kind; cases kind

/-- What a symbol is made of. -/
theorem symbol_form {c : Char} (h : w.Leads cs) (hk : w.kind = .symbol c) :
    w.spelling = [c] ∧ isPunctuation c ∧ isNameStart c = false ∧ c ≠ '"' ∧ c ≠ '\'' := by
  cases h.form with
  | symbol d spelling kind start slash dot =>
      rw [hk, Kind.symbol.injEq] at kind
      subst kind
      exact ⟨spelling, start⟩
  | lineComment xs spelling kind ends => rw [hk] at kind; cases kind
  | blockComment xs spelling kind ends => rw [hk] at kind; cases kind
  | number c xs isFloat spelling start kind ends => rw [hk] at kind; cases isFloat <;> cases kind
  | name c xs spelling start kind ends => rw [hk] at kind; cases kind
  | string quote xs value spelling start kind ends => rw [hk] at kind; cases kind

/-- What a comment is made of: it takes the rest of its line, or it is a block. -/
theorem comment_form {text : String} (h : w.Leads cs) (hk : w.kind = .comment text) :
    (∃ xs, w.spelling = '/' :: '/' :: xs ∧ text.toList = Text.trimEnd w.spelling ∧
      cut (· ≠ '\n') (w.spelling ++ cs) = (w.spelling, cs)) ∨
    (∃ xs, w.spelling = '/' :: '*' :: xs ∧ text.toList = w.spelling ∧
      cutBlock? (xs ++ cs) = some (xs, cs)) := by
  cases h.form with
  | lineComment xs spelling kind ends =>
      rw [hk, Kind.comment.injEq] at kind
      exact .inl ⟨xs, spelling, by rw [kind, String.toList_ofList], ends⟩
  | blockComment xs spelling kind ends =>
      rw [hk, Kind.comment.injEq] at kind
      exact .inr ⟨xs, spelling, by rw [kind, String.toList_ofList], ends⟩
  | number c xs isFloat spelling start kind ends => rw [hk] at kind; cases isFloat <;> cases kind
  | name c xs spelling start kind ends => rw [hk] at kind; cases kind
  | string quote xs value spelling start kind ends => rw [hk] at kind; cases kind
  | symbol c spelling kind start slash dot => rw [hk] at kind; cases kind

/-- What follows a name could not go on with it. -/
theorem nameEnds {name : String} (h : w.Leads cs) (hk : w.kind = .ident name) : NameEnds cs :=
  nameEnds_of_cutName (h.name_form hk).2.2

/-- A name stays in front of every text that could not go on with it. -/
theorem of_nameEnds {name : String} (h : w.Leads cs) (hk : w.kind = .ident name) {ds : List Char}
    (hd : NameEnds ds) : w.Leads ds := by
  obtain ⟨⟨c, xs, hspelling, hstart⟩, hname, ends⟩ := h.name_form hk
  refine Form.leads (.name c xs hspelling ?_ ?_ (name_stays ends hd))
  · rcases hstart with hstart | ⟨hdot, hnext⟩
    · exact .inl hstart
    · refine .inr ⟨hdot, ?_⟩
      cases xs with
      | nil => cases hnext
      | cons x xs => exact hnext
  · rw [hk, ← hname, String.ofList_toList]

/-- A symbol that is no dot and no slash stays in front of every text. -/
theorem of_symbol {c : Char} (h : w.Leads cs) (hk : w.kind = .symbol c) (hdot : c ≠ '.')
    (hslash : c ≠ '/') (ds : List Char) : w.Leads ds := by
  obtain ⟨hspelling, hstart⟩ := h.symbol_form hk
  exact Form.leads (.symbol c hspelling hk hstart (fun h => absurd h hslash) (fun h => absurd h hdot))

/-- A comment that something follows on its line stays in front of every text: it is a block. -/
theorem of_comment {text : String} {c : Char} (h : w.Leads cs) (hk : w.kind = .comment text)
    (hc : cs.head? = some c) (hn : c ≠ '\n') (ds : List Char) : w.Leads ds := by
  rcases h.comment_form hk with ⟨xs, -, -, ends⟩ | ⟨xs, hspelling, htext, ends⟩
  · have := (cut_eq_iff.mp ends).2 c hc
    simp [hn] at this
  · refine Form.leads (.blockComment xs hspelling ?_ (block_stays ends ds))
    rw [hk, ← htext, String.ofList_toList]

/-- **A word ends where its line does**, whatever is behind it. -/
theorem of_lineEnd (h : w.Leads cs) {ds : List Char} (hd : AtLineEnd ds) : w.Leads ds := by
  cases h.form with
  | lineComment xs spelling kind ends =>
      exact Form.leads (.lineComment xs spelling kind ((localCut_cut rfl).stays ends (.inr hd)))
  | blockComment xs spelling kind ends => exact Form.leads (.blockComment xs spelling kind (block_stays ends ds))
  | number c xs isFloat spelling start kind ends =>
      rw [spelling] at ends
      refine Form.leads (.number c xs isFloat spelling ?_ kind ?_)
      · rcases start with start | ⟨rfl, hdigit⟩
        · exact .inl start
        -- The digit behind the dot is one of the number.
        · refine .inr ⟨rfl, ?_⟩
          cases xs with
          | cons x xs => exact hdigit
          | nil =>
              cases cs with
              | nil => cases hdigit
              | cons c cs =>
                  have hc : c.isDigit = true := hdigit
                  rw [isDigit_eq_false_of_cutNumber ends] at hc
                  cases hc
      · rw [spelling]
        exact number_stays ends (.inr hd)
  | name c xs spelling start kind ends =>
      exact h.of_nameEnds kind (nameEnds_of_lineEnd hd)
  | string quote xs value spelling start kind ends =>
      exact Form.leads (.string quote xs value spelling start kind (string_stays ends ds))
  | symbol c spelling kind start slash dot =>
      -- A line feed goes on with neither a dot nor a slash.
      have hhead : ∀ p : Char → Bool, p '\n' = false → ds.head?.any p = false := by
        intro p hp
        cases ds with
        | nil => rfl
        | cons d ds => exact hd d rfl ▸ hp
      refine Form.leads (.symbol c spelling kind start (fun _ => ⟨fun h => ?_, fun h => ?_⟩)
        (fun _ => ⟨hhead _ rfl, hhead _ rfl⟩))
      · exact absurd (hd _ h) (by decide)
      · exact absurd (hd _ h) (by decide)

/-- A text without the blanks at its end keeps the characters that are none. -/
theorem trimEnd_cons {c : Char} (hc : Text.isBlank c = false) (xs : List Char) :
    Text.trimEnd (c :: xs) = c :: Text.trimEnd xs := by
  show (c :: xs).rdropWhile Text.isBlank = c :: xs.rdropWhile Text.isBlank
  induction xs using List.reverseRecOn with
  | nil => rw [List.rdropWhile_singleton]; simp [hc]
  | append_singleton xs x ih =>
      rw [← List.cons_append, List.rdropWhile_concat, List.rdropWhile_concat, ih]
      split <;> rfl

/-- A comment written anew at the end of a line is read as itself. -/
theorem comment_anew {text : String} (h : w.Leads cs) (hk : w.kind = .comment text)
    (b ds : List Char) : (⟨b, text.toList, .comment text⟩ : Word).Leads ('\n' :: ds) := by
  rcases h.comment_form hk with ⟨xs, hspelling, htext, ends⟩ | ⟨xs, hspelling, htext, ends⟩
  · have hslash : Text.isBlank '/' = false := by decide
    have hstart : text.toList = '/' :: '/' :: Text.trimEnd xs := by
      rw [htext, hspelling, trimEnd_cons hslash, trimEnd_cons hslash]
    refine Form.leads (.lineComment (Text.trimEnd xs) hstart ?_ ?_)
    · show Kind.comment text = .comment (String.ofList (Text.trimEnd text.toList))
      rw [htext, show Text.trimEnd (Text.trimEnd w.spelling) = Text.trimEnd w.spelling from
        List.rdropWhile_idempotent _ _, ← htext, String.ofList_toList]
    · show cut (· ≠ '\n') (text.toList ++ '\n' :: ds) = _
      refine cut_eq_iff.mpr ⟨?_, ?_⟩
      · intro c hc
        rw [htext] at hc
        exact (cut_eq_iff.mp ends).1 c ((List.rdropWhile_prefix _ _).subset hc)
      · intro c hc
        cases hc
        rfl
  · refine Form.leads (.blockComment xs (htext.trans hspelling) ?_ (block_stays ends _))
    show Kind.comment text = .comment (String.ofList text.toList)
    rw [String.ofList_toList]

end Word.Leads

/-- **Words end where their line does**, whatever is behind it. -/
theorem reads_of_lineEnd {ws : List Word} {cs ds : List Char} (h : Reads cs ws) (hd : AtLineEnd ds) :
    Reads ds ws := by
  induction ws with
  | nil => exact reads_nil _
  | cons w ws ih =>
      obtain ⟨hblank, hleads, hws⟩ := h
      refine ⟨hblank, ?_, ih hws⟩
      cases ws with
      | nil => exact hleads.of_lineEnd hd
      | cons v ws =>
          have hne : textOf (v :: ws) ≠ [] := List.append_ne_nil_of_left_ne_nil hws.2.1.text_ne_nil _
          refine hleads.of_head ?_ fun hname => hname.of_lineEnd hd
          rw [List.head?_append_of_ne_nil _ hne, List.head?_append_of_ne_nil _ hne]

-- ── Words written anew ───────────────────────────────────────────────────────────

/-- A name without a dot. -/
def isPlainName : List Char → Bool
  | []      => false
  | c :: cs => isNameStart c && cs.all isNameChar

/-- A name goes on through the characters of names. -/
theorem cutName_append_of_nameChars {cs : List Char} (h : ∀ c ∈ cs, isNameChar c = true) (ds : List Char) :
    cutName (cs ++ ds) = (cs ++ (cutName ds).1, (cutName ds).2) := by
  induction cs with
  | nil => rfl
  | cons c cs ih =>
      obtain ⟨hc, hcs⟩ := List.forall_mem_cons.mp h
      rw [List.cons_append, cutName, if_pos (by rw [hc]; rfl), ih hcs]
      rfl

/-- A plain name starts with a name start and goes on with characters of names. -/
theorem exists_of_isPlainName {cs : List Char} (h : isPlainName cs = true) :
    ∃ c ds, cs = c :: ds ∧ isNameStart c = true ∧ ∀ d ∈ cs, isNameChar d = true := by
  cases cs with
  | nil => cases h
  | cons c ds =>
      rw [isPlainName, Bool.and_eq_true, List.all_eq_true] at h
      exact ⟨c, ds, rfl, h.1, List.forall_mem_cons.mpr ⟨isNameChar_of_isNameStart h.1, h.2⟩⟩

/-- A name in front of a text that could not go on with it. -/
theorem leads_name {name : String} {rest : List Char} (b : List Char)
    (h : isPlainName name.toList = true) (hrest : NameEnds rest) :
    (⟨b, name.toList, .ident name⟩ : Word).Leads rest := by
  obtain ⟨c, cs, hname, hc, hchars⟩ := exists_of_isPlainName h
  refine Form.leads (.name c cs hname (.inl hc) ?_ ?_)
  · show Kind.ident name = .ident (String.ofList name.toList)
    rw [String.ofList_toList]
  · show cutName (name.toList ++ rest) = (name.toList, rest)
    rw [cutName_append_of_nameChars hchars, nameEnds_iff.mp hrest, List.append_nil]

/-- A symbol that is no dot and no slash. -/
theorem leads_symbol {c : Char} (b rest : List Char) (hpunct : isPunctuation c = true)
    (hname : isNameStart c = false) (hquote : c ≠ '"' ∧ c ≠ '\'') (hdot : c ≠ '.')
    (hslash : c ≠ '/') : (⟨b, [c], .symbol c⟩ : Word).Leads rest :=
  Form.leads (.symbol c rfl rfl ⟨hpunct, hname, hquote⟩ (fun h => absurd h hslash)
    (fun h => absurd h hdot))

/-- A text that could not go on with the digits of a number in front of it. -/
def DigitsEnd (rest : List Char) : Prop :=
  ∀ c, rest.head? = some c → isNameChar c = false ∧ c ≠ '.'

/-- Digits in front of a text that could not go on with them. -/
theorem leads_digits {c : Char} {cs rest : List Char} (b : List Char)
    (hdigits : ∀ d ∈ c :: cs, d.isDigit = true) (hrest : DigitsEnd rest) :
    (⟨b, c :: cs, .int (String.ofList (c :: cs))⟩ : Word).Leads rest := by
  have hnodigit : ∀ d, rest.head? = some d → d.isDigit = false := by
    intro d hd
    cases hx : d.isDigit with
    | false => rfl
    | true =>
        have := (hrest d hd).1
        rw [isNameChar_of_isDigit hx] at this
        cases this
  have hpart : ∀ marks tail, (∀ m ∈ marks, isNameChar m = true ∨ m = '.') →
      cutPart marks tail rest = ([], rest) := by
    intro marks tail hmarks
    cases rest with
    | nil => rfl
    | cons d ds =>
        rw [cutPart, if_neg]
        intro hd
        rcases hmarks d (by simpa using hd) with h | h
        · rw [(hrest d rfl).1] at h; cases h
        · exact (hrest d rfl).2 h
  refine Form.leads (.number c cs false rfl (Or.inl (hdigits c (List.mem_cons_self ..))) rfl ?_)
  show cutNumber (c :: cs ++ rest) = (false, c :: cs, rest)
  rw [cutNumber_decimal]
  · have hcut : cut Char.isDigit (c :: cs ++ rest) = (c :: cs, rest) :=
      cut_eq_iff.mpr ⟨hdigits, hnodigit⟩
    have hglued : cut isNameChar ([] ++ rest) = ([], rest) :=
      cut_eq_iff.mpr ⟨List.forall_mem_nil _, fun d hd => (hrest d hd).1⟩
    rw [List.nil_append] at hglued
    have hfraction := hpart ['.'] (cut Char.isDigit) (by simp)
    have hexponent := hpart ['e', 'E'] cutSigned fun m hm => .inl (by
      rcases List.mem_pair.mp hm with rfl | rfl <;> rfl)
    have hsuffix := hpart [] cutNone (by simp)
    simp only [cutNumber.decimal, hcut, hfraction, hexponent, List.isEmpty_nil, Bool.and_self,
      Bool.not_true, Bool.false_eq_true, if_false, hsuffix, hglued, List.append_nil]
  · intro x tail heq hx
    rw [List.cons_append, List.cons.injEq] at heq
    have hhead : (cs ++ rest).head? = some x := by rw [heq.2]; rfl
    cases cs with
    | nil =>
        have := (hrest x hhead).1
        rcases hx with rfl | rfl <;> revert this <;> decide
    | cons d ds =>
        cases hhead
        have := hdigits x (by simp)
        rcases hx with rfl | rfl <;> revert this <;> decide

end FlagSchema.Token
