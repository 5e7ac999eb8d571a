import FlagSchema.Code.Tree

/-!
# The text of code

The text of code is read back as the code, one character after the other: a blank ends a word, a bracket opens or
closes a group, every other character belongs to a word. What is read is the code that was written if its words have
no blanks and no brackets.

* **`Code.read?`**: the code that a text stands for.
* **`CodeTree.IsPlain`**, **`CodeTree.AllPlain`**: the words of code have no blanks and no brackets.
* **`Code.read?_renderAll`**: the text of such code is read back as the code.
-/

namespace FlagSchema

-- ── Reading a text ───────────────────────────────────────────────────────────────

/-- The brackets that a character opens. -/
def Delimiter.opened? : Char → Option Delimiter
  | '('    => some .parens
  | '['    => some .brackets
  | '\x7b' => some .braces
  | _      => none

/-- The brackets that a character closes. -/
def Delimiter.closed? : Char → Option Delimiter
  | ')'    => some .parens
  | ']'    => some .brackets
  | '\x7d' => some .braces
  | _      => none

/-- What has been read of a text: the groups that are open, each with the code in front of it, the innermost first;
    the code in the innermost; and the front of a word. -/
structure CodeFront where
  outer : List (Delimiter × Code) := []
  code  : Code := []
  word  : List Char := []

namespace CodeFront

/-- The code in the innermost group, with the word that ends here. -/
def taken (s : CodeFront) : Code := if s.word.isEmpty then s.code else s.code ++ [.word (String.ofList s.word)]

/-- Closes the innermost group. -/
def close? (s : CodeFront) (d : Delimiter) : Option CodeFront :=
  match s.outer with
  | []                   => none
  | (opened, code) :: outer => if opened = d then some { outer, code := code ++ [.group d s.taken] } else none

/-- Reads a character. -/
def step? (s : CodeFront) (c : Char) : Option CodeFront :=
  match Delimiter.opened? c, Delimiter.closed? c with
  | some d, _    => some { outer := (d, s.taken) :: s.outer }
  | none, some d => s.close? d
  | none, none   =>
    if c = ' ' then some { s with code := s.taken, word := [] }
    else some { s with word := s.word ++ [c] }

/-- Reads several characters. -/
def run? (s : CodeFront) (cs : List Char) : Option CodeFront := cs.foldlM step? s

theorem run?_append (s : CodeFront) (front back : List Char) :
    s.run? (front ++ back) = (s.run? front).bind (·.run? back) := List.foldlM_append

end CodeFront

/-- The code that a text stands for. -/
def Code.read? (text : String) : Option Code :=
  (CodeFront.run? {} text.toList).bind fun s => if s.outer.isEmpty then some s.taken else none

-- ── Words without blanks and brackets ────────────────────────────────────────────

/-- A character of words. -/
def isWordChar (c : Char) : Bool :=
  c != ' ' && (Delimiter.opened? c).isNone && (Delimiter.closed? c).isNone

/-- A text that is read as one word. -/
def isPlainWord (text : String) : Bool := !text.toList.isEmpty && text.toList.all isWordChar

/-- A text is read as words with blanks between them. -/
def areWords (text : List Char) : Bool :=
  (Text.splitAt ' ' text).all fun cs => !cs.isEmpty && cs.all isWordChar

theorem isWordChar_iff {c : Char} : isWordChar c = true ↔ c ∉ [' ', '(', ')', '[', ']', '\x7b', '\x7d'] := by
  unfold isWordChar Delimiter.opened? Delimiter.closed?
  split <;> split <;> simp_all

theorem isPlainWord_iff {text : String} :
    isPlainWord text = true ↔ text.toList ≠ [] ∧ ∀ c ∈ text.toList, isWordChar c = true := by
  rw [isPlainWord, Bool.and_eq_true, List.all_eq_true, Bool.not_eq_true', List.isEmpty_eq_false_iff]

/-- A word between texts of the characters of words is a word with them. -/
theorem isPlainWord_between {text : String} (h : isPlainWord text = true) {front back : String}
    (hsides : front.toList.all isWordChar = true ∧ back.toList.all isWordChar = true) :
    isPlainWord (front ++ text ++ back) = true := by
  obtain ⟨hne, hall⟩ := isPlainWord_iff.mp h
  rw [List.all_eq_true, List.all_eq_true] at hsides
  obtain ⟨hfront, hback⟩ := hsides
  refine isPlainWord_iff.mpr ⟨by simp [hne], ?_⟩
  rw [String.toList_append, String.toList_append]
  exact List.forall_mem_append.mpr ⟨List.forall_mem_append.mpr ⟨hfront, hall⟩, hback⟩

namespace CodeTree

mutual

/-- All words of a piece of code are read as such. -/
def IsPlain : CodeTree → Prop
  | word text     => isPlainWord text = true
  | group _ inner => AllPlain inner

/-- All words of pieces of code are read as such. -/
def AllPlain : List CodeTree → Prop
  | []      => True
  | t :: ts => IsPlain t ∧ AllPlain ts

end

variable {code code' : Code} {text : String}

@[simp] theorem allPlain_nil : AllPlain [] := trivial

@[simp] theorem allPlain_cons {t : CodeTree} : AllPlain (t :: code) ↔ t.IsPlain ∧ AllPlain code := Iff.rfl

@[simp] theorem isPlain_word : (word text).IsPlain ↔ isPlainWord text = true := Iff.rfl

@[simp] theorem allPlain_append : AllPlain (code ++ code') ↔ AllPlain code ∧ AllPlain code' := by
  induction code with
  | nil => exact (and_iff_right trivial).symm
  | cons t code ih => rw [List.cons_append, AllPlain, AllPlain, ih, and_assoc]

@[simp] theorem allPlain_flatten {codes : List Code} : AllPlain codes.flatten ↔ ∀ code ∈ codes, AllPlain code := by
  induction codes with
  | nil => exact iff_of_true trivial nofun
  | cons code codes ih => rw [List.flatten_cons, allPlain_append, ih, List.forall_mem_cons]

@[simp] theorem allPlain_flatMap {α : Type} {xs : List α} {f : α → Code} :
    AllPlain (xs.flatMap f) ↔ ∀ x ∈ xs, AllPlain (f x) := by
  rw [List.flatMap, allPlain_flatten, List.forall_mem_map]

@[simp] theorem allPlain_parens : AllPlain (parens code) ↔ AllPlain code := iff_of_eq (and_true _)

@[simp] theorem allPlain_brackets : AllPlain (brackets code) ↔ AllPlain code := iff_of_eq (and_true _)

@[simp] theorem allPlain_braces : AllPlain (braces code) ↔ AllPlain code := iff_of_eq (and_true _)

@[simp] theorem allPlain_words : AllPlain (words text) ↔ areWords text.toList = true := by
  rw [words, areWords, List.map_eq_flatMap, allPlain_flatMap, List.all_eq_true]
  simp only [allPlain_cons, isPlain_word, isPlainWord, String.toList_ofList, allPlain_nil, and_true]

end CodeTree

-- ── Reading back ─────────────────────────────────────────────────────────────────

namespace CodeFront

open CodeTree

/-- Reading a text adds code to what has been read, all groups closed that it opens. -/
def Adds (text : List Char) (code : Code) : Prop :=
  ∀ s : CodeFront, s.word = [] → ∃ s', s.run? text = some s' ∧ s'.outer = s.outer ∧ s'.taken = s.code ++ code

theorem taken_of_word {s : CodeFront} (h : s.word = []) : s.taken = s.code := by
  rw [taken, h]
  rfl

theorem step?_of_isWordChar {c : Char} (h : isWordChar c = true) (s : CodeFront) :
    s.step? c = some { s with word := s.word ++ [c] } := by
  unfold isWordChar at h
  simp only [Bool.and_eq_true, bne_iff_ne, Option.isNone_iff_eq_none] at h
  obtain ⟨⟨hblank, hopened⟩, hclosed⟩ := h
  rw [step?, hopened, hclosed]
  exact if_neg hblank

theorem run?_of_all {cs : List Char} (h : ∀ c ∈ cs, isWordChar c = true) (s : CodeFront) :
    s.run? cs = some { s with word := s.word ++ cs } := by
  induction cs generalizing s with
  | nil => rw [List.append_nil]; rfl
  | cons c cs ih =>
      obtain ⟨hc, hcs⟩ := List.forall_mem_cons.mp h
      rw [run?, List.foldlM_cons, step?_of_isWordChar hc]
      refine (ih hcs _).trans ?_
      rw [List.append_assoc]
      rfl

theorem adds_nil : Adds [] [] := fun s hs => ⟨s, rfl, rfl, by rw [taken_of_word hs, List.append_nil]⟩

/-- A word. -/
theorem adds_word {text : String} (h : isPlainWord text = true) : Adds text.toList [.word text] := by
  intro s hs
  obtain ⟨hne, hall⟩ := isPlainWord_iff.mp h
  refine ⟨_, run?_of_all hall s, rfl, ?_⟩
  have htext : text.toList.isEmpty = false := List.isEmpty_eq_false_iff.mpr hne
  rw [hs, List.nil_append]
  simp only [taken, htext, Bool.false_eq_true, if_false, String.ofList_toList]

/-- A blank between two texts. -/
theorem Adds.append {front back : List Char} {code code' : Code} (h : Adds front code) (h' : Adds back code') :
    Adds (front ++ ' ' :: back) (code ++ code') := by
  intro s hs
  obtain ⟨s₁, hrun, houter, htaken⟩ := h s hs
  obtain ⟨s₂, hrun', houter', htaken'⟩ := h' { s₁ with code := s₁.taken, word := [] } rfl
  refine ⟨s₂, ?_, houter'.trans houter, ?_⟩
  · rw [run?_append, hrun, Option.bind_some]
    exact hrun'
  · rw [htaken']
    show s₁.taken ++ code' = _
    rw [htaken, List.append_assoc]

/-- Brackets around a text. -/
theorem Adds.group {text : List Char} {inner : Code} {d : Delimiter} {first last : Char} (h : Adds text inner)
    (hfirst : Delimiter.opened? first = some d) (hlast : Delimiter.opened? last = none)
    (hclosed : Delimiter.closed? last = some d) : Adds (first :: (text ++ [last])) [.group d inner] := by
  intro s hs
  obtain ⟨s₁, hrun, houter, htaken⟩ := h { outer := (d, s.code) :: s.outer } rfl
  have hopen : s.step? first = some { outer := (d, s.code) :: s.outer } := by
    rw [step?, hfirst, taken_of_word hs]
  have hclose : s₁.step? last = some { outer := s.outer, code := s.code ++ [.group d s₁.taken] } := by
    rw [step?, hlast, hclosed]
    show s₁.close? d = _
    rw [close?, houter]
    exact if_pos rfl
  refine ⟨{ outer := s.outer, code := s.code ++ [.group d s₁.taken] }, ?_, rfl, ?_⟩
  · rw [run?, List.foldlM_cons, hopen]
    refine (run?_append _ text [last]).trans ?_
    rw [hrun, Option.bind_some, run?, List.foldlM_cons, hclose]
    rfl
  · rw [taken_of_word rfl, htaken]
    rfl

/-- Blanks at both ends. -/
theorem Adds.spaced {text : List Char} {code : Code} (h : Adds text code) : Adds (' ' :: (text ++ [' '])) code := by
  have hspaced := adds_nil.append (h.append adds_nil)
  rwa [List.nil_append, List.nil_append, List.append_nil] at hspaced

/-- No text adds no code. -/
theorem Adds.eq_nil {code : Code} (h : Adds [] code) : code = [] := by
  obtain ⟨s, hrun, -, htaken⟩ := h {} rfl
  cases hrun
  exact htaken.symm

end CodeFront

namespace CodeTree

open CodeFront

/-- A group adds itself if its text adds what is inside. -/
theorem adds_enclose {text : String} {inner : Code} (h : Adds text.toList inner) (d : Delimiter) :
    Adds (enclose d text).toList [.group d inner] := by
  cases d with
  | parens =>
      have htext : (enclose .parens text).toList = '(' :: (text.toList ++ [')']) := by simp [enclose]
      rw [htext]
      exact h.group rfl rfl rfl
  | brackets =>
      have htext : (enclose .brackets text).toList = '[' :: (text.toList ++ [']']) := by simp [enclose]
      rw [htext]
      exact h.group rfl rfl rfl
  | braces =>
      rw [enclose]
      split
      · next hempty =>
          -- Nothing inside is written with one blank.
          have hnil : text.toList = [] := by simpa using hempty
          rw [hnil] at h
          obtain rfl := h.eq_nil
          exact (adds_nil.append adds_nil).group rfl rfl rfl
      · have htext : ("\x7b " ++ text ++ " \x7d").toList = '\x7b' :: (' ' :: (text.toList ++ [' ']) ++ ['\x7d']) := by
          simp
        rw [htext]
        exact h.spaced.group rfl rfl rfl

theorem renderAll_cons_cons (t u : CodeTree) (ts : List CodeTree) :
    (renderAll (t :: u :: ts)).toList = t.render.toList ++ ' ' :: (renderAll (u :: ts)).toList := by
  simp [renderAll, renderEach, String.toList_intercalate]

mutual

theorem adds_render : ∀ {t : CodeTree}, t.IsPlain → Adds t.render.toList [t]
  | word _, h        => adds_word h
  | group d inner, h => adds_enclose (adds_renderAll (show AllPlain inner from h)) d

theorem adds_renderAll : ∀ {ts : List CodeTree}, AllPlain ts → Adds (renderAll ts).toList ts
  | [], _ => adds_nil
  | [t], h => by
    have htext : renderAll [t] = t.render := by simp [renderAll, renderEach]
    rw [htext]
    exact adds_render h.1
  | t :: u :: ts, h => by
    rw [renderAll_cons_cons]
    exact (adds_render h.1).append (adds_renderAll h.2)

end

end CodeTree

/-- **The text of code is read back as the code**, if its words have no blanks and no brackets. -/
theorem Code.read?_renderAll {code : Code} (h : CodeTree.AllPlain code) :
    read? (CodeTree.renderAll code) = some code := by
  obtain ⟨s, hrun, houter, htaken⟩ := CodeTree.adds_renderAll h {} rfl
  rw [read?, hrun, Option.bind_some, houter, htaken]
  rfl

end FlagSchema
