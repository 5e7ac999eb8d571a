import FlagSchema.Proofs.Numerals
import FlagSchema.Report.Json

/-!
# Documents read back

What is written as JSON is read back as itself: a literal character by character, a tree level by level, a
report field by field.

* **`JsonTree.readText_literal`**: a string literal, whatever characters the text has.
* **`JsonTree.ReadsBack`**: a tree is read back wherever its text stands. **`HasValues.readsBack`** proves it
  of every tree whose texts and numbers have a value, by induction on the tree.
* **`JsonTree.fields?_record`**: a record by its keys.
* **`Report.ofJson?_toJson`**: a report.
-/

namespace FlagSchema

namespace JsonTree

-- ── Texts ────────────────────────────────────────────────────────────────────────

/-- The piece that a written character is read as: a control without a letter of its own is written as
    its code unit. -/
def pieceOf (c : Char) : Piece :=
  if c.toNat < 0x20 ∧ c ∉ ['\x08', '\t', '\n', '\x0c', '\r'] then .unit c.toNat else .char c

/-- A control is written with four digits, which have its value. -/
theorem ofDigits?_control : ∀ n < 0x20,
    (List.replicate (4 - (Text.hex n).length) '0' ++ Text.hex n).length = 4 ∧
      Text.ofDigits? 16 (List.replicate (4 - (Text.hex n).length) '0' ++ Text.hex n) = some n := by
  decide

/-- A code unit is read from its four digits. -/
theorem readPieces_unit {ds : List Char} {n : Nat} (hlen : ds.length = 4)
    (hvalue : Text.ofDigits? 16 ds = some n) (rest : List Char) :
    readPieces ('\\' :: 'u' :: ds ++ rest) = (readPieces rest).map fun (ps, rest) => (.unit n :: ps, rest) := by
  match ds, hlen with
  | [a, b, c, d], _ =>
      show (Text.ofDigits? 16 [a, b, c, d]).bind _ = _
      rw [hvalue]
      rfl

/-- A character that needs no escape is read as itself. -/
theorem readPieces_char {c : Char} (hquote : c ≠ '"') (hback : c ≠ '\\') (hc : 0x20 ≤ c.toNat)
    (rest : List Char) :
    readPieces (c :: rest) = (readPieces rest).map fun (ps, rest) => (.char c :: ps, rest) := by
  rw [readPieces.eq_def]
  split
  · next heq => cases heq
  · next heq => cases heq; exact absurd rfl hquote
  · next heq => cases heq; exact absurd rfl hback
  · next heq => cases heq; exact absurd rfl hback
  · next heq =>
      cases heq
      exact if_neg fun h => h.elim hback (Nat.not_lt.mpr hc)

/-- A written character is read as its piece. -/
theorem readPieces_escaped (c : Char) (rest : List Char) :
    readPieces (escaped c ++ rest) = (readPieces rest).map fun (ps, rest) => (pieceOf c :: ps, rest) := by
  unfold escaped
  split
  · next h => subst h; rfl
  split
  · next h => subst h; rfl
  split
  · next h => subst h; rfl
  split
  · next h => subst h; rfl
  split
  · next h => subst h; rfl
  split
  · next h => subst h; rfl
  split
  · next h => subst h; rfl
  split
  · next hquote hback hb ht hn hf hr hc =>
      obtain ⟨hlen, hvalue⟩ := ofDigits?_control c.toNat hc
      have hpiece : pieceOf c = .unit c.toNat := if_pos ⟨hc, by simp [hb, ht, hn, hf, hr]⟩
      rw [hpiece]
      exact readPieces_unit hlen hvalue rest
  · next hquote hback hb ht hn hf hr hc =>
      have hpiece : pieceOf c = .char c := if_neg fun h => hc h.1
      rw [hpiece]
      exact readPieces_char hquote hback (Nat.not_lt.mp hc) rest

/-- No control is half of a surrogate pair, so the piece of a character gives the character. -/
theorem joinPieces_cons (c : Char) (ps : List Piece) :
    joinPieces (pieceOf c :: ps) = (joinPieces ps).map (c :: ·) := by
  unfold pieceOf
  split
  · next h =>
      have hlow : ¬ (0xd800 ≤ c.toNat ∧ c.toNat < 0xdc00) := by omega
      have hhigh : ¬ (0xdc00 ≤ c.toNat ∧ c.toNat < 0xe000) := by omega
      rw [joinPieces.eq_def]
      dsimp only
      rw [if_neg hlow, if_neg hhigh, Char.ofNat_toNat]
  · rfl

/-- A string literal is read back as its text. -/
theorem readText_literal (s : String) (rest : List Char) :
    readText (s.toList.flatMap escaped ++ '"' :: rest) = some (some s, rest) := by
  have hpieces : ∀ cs : List Char,
      readPieces (cs.flatMap escaped ++ '"' :: rest) = some (cs.map pieceOf, rest) := by
    intro cs
    induction cs with
    | nil => rfl
    | cons c cs ih =>
        rw [List.flatMap_cons, List.append_assoc, readPieces_escaped, ih]
        rfl
  have htext : ∀ cs : List Char, joinPieces (cs.map pieceOf) = some cs := by
    intro cs
    induction cs with
    | nil => rfl
    | cons c cs ih =>
      rw [List.map_cons, joinPieces_cons, ih]
      rfl
  rw [readText, hpieces, Option.map_some]
  dsimp only
  rw [htext, Option.map_some, String.ofList_toList]

-- ── Numbers ──────────────────────────────────────────────────────────────────────

/-- What follows a value goes on with no number. -/
def EndsNumber (rest : List Char) : Prop :=
  ∀ c ∈ rest.head?, c.isDigit = false ∧ c ≠ '.' ∧ c ≠ 'e' ∧ c ≠ 'E'

@[simp] theorem endsNumber_nil : EndsNumber [] := by
  rintro d ⟨⟩

theorem endsNumber_comma (rest : List Char) : EndsNumber (',' :: rest) := by
  rintro d ⟨⟩
  decide

theorem endsNumber_newLine (n : Nat) (rest : List Char) : EndsNumber (newLine n ++ rest) := by
  rintro d ⟨⟩
  decide

theorem readDigitsAfter_none {announces : Char → Bool} {signs rest : List Char}
    (h : ∀ c ∈ rest.head?, announces c = false) :
    readDigitsAfter announces signs rest = some (false, rest) := by
  cases rest with
  | nil => rfl
  | cons c cs => exact if_neg (by simp [h c rfl])

/-- A number is read back from its digits where no other digit, fraction or exponent follows. -/
theorem readNumber_toDigits (n : Nat) {rest : List Char} (h : EndsNumber rest) :
    readNumber (Nat.toDigits 10 n ++ rest) = some (.natural n, rest) := by
  obtain ⟨c, cs, hcs, hdigits⟩ := digits_repr n
  rw [Nat.toList_repr] at hcs
  have hvalue : Text.ofDigits? 10 (c :: cs) = some n := by
    rw [← hcs]
    exact Text.ofDigits?_toDigits (by decide) (by decide) n
  have hsign : c ≠ '-' := by
    rintro rfl
    exact absurd (hdigits '-' (List.mem_cons_self ..)) (by decide)
  have hzero : ¬ ((c :: cs).head? = some '0' ∧ (c :: cs).length ≠ 1) := by
    rintro ⟨hhead, hlen⟩
    cases hhead
    exact hlen (by rw [toDigits_eq_zero_cons hcs]; rfl)
  have hrest : ∀ d ∈ rest.head?, d.isDigit = false := fun d hd => (h d hd).1
  have htake : (c :: cs ++ rest).takeWhile Char.isDigit = c :: cs := by
    rw [List.takeWhile_append_of_pos hdigits]
    cases rest with
    | nil => exact List.append_nil _
    | cons d ds => rw [List.takeWhile_cons_of_neg (by simp [hrest d rfl]), List.append_nil]
  have hdrop : (c :: cs ++ rest).dropWhile Char.isDigit = rest := by
    rw [List.dropWhile_append_of_pos hdigits]
    cases rest with
    | nil => rfl
    | cons d ds => rw [List.dropWhile_cons_of_neg (by simp [hrest d rfl])]
  have hpoint : readDigitsAfter (· == '.') [] rest = some (false, rest) :=
    readDigitsAfter_none fun d hd => beq_eq_false_iff_ne.mpr (h d hd).2.1
  have hexponent :
      readDigitsAfter (fun d => d == 'e' || d == 'E') ['+', '-'] rest = some (false, rest) :=
    readDigitsAfter_none fun d hd => by simp [(h d hd).2.2]
  rw [hcs, readNumber]
  · dsimp only
    rw [htake, hdrop, if_neg hzero, hvalue, Option.bind_some, hpoint, Option.bind_some, hexponent]
    rfl
  · intro tail heq
    cases heq
    exact hsign rfl

-- ── Between the values ───────────────────────────────────────────────────────────

theorem isBlank_newLine (indent : Nat) : ∀ c ∈ newLine indent, isBlank c = true := by
  intro c hc
  rcases List.mem_cons.mp hc with rfl | hc
  · rfl
  · rw [List.eq_of_mem_replicate hc]
    rfl

theorem isBlank_of_isDigit {c : Char} (h : c.isDigit = true) : isBlank c = false := by
  cases hb : isBlank c with
  | false => rfl
  | true =>
      simp only [isBlank, Bool.or_eq_true, beq_iff_eq] at hb
      rcases hb with ((rfl | rfl) | rfl) | rfl <;> exact absurd h (by decide)

theorem skipBlanks_append {bs : List Char} (h : ∀ c ∈ bs, isBlank c = true) (rest : List Char) :
    skipBlanks (bs ++ rest) = skipBlanks rest :=
  List.dropWhile_append_of_pos h

theorem skipBlanks_cons {c : Char} (h : isBlank c = false) (rest : List Char) :
    skipBlanks (c :: rest) = c :: rest :=
  List.dropWhile_cons_of_neg (by simp [h])

theorem literal_append (s : String) (rest : List Char) :
    literal (some s) ++ rest = '"' :: (s.toList.flatMap escaped ++ '"' :: rest) := by
  show '"' :: (s.toList.flatMap escaped ++ ['"']) ++ rest = _
  rw [List.cons_append, List.append_assoc]
  rfl

/-- A written tree starts with no blank and with no bracket that would close an array. -/
theorem exists_prettyAt (indent : Nat) (t : JsonTree) :
    ∃ c cs, prettyAt indent t = c :: cs ∧ isBlank c = false ∧ c ≠ ']' := by
  cases t with
  | null => exact ⟨_, _, by rw [prettyAt], by decide, by decide⟩
  | bool b => cases b <;> exact ⟨_, _, by rw [prettyAt], by decide, by decide⟩
  | natural n =>
      obtain ⟨c, cs, hcs, hdigits⟩ := digits_repr n
      have hc := hdigits c (List.mem_cons_self ..)
      refine ⟨c, cs, by rw [prettyAt, ← hcs, Nat.toList_repr], isBlank_of_isDigit hc, ?_⟩
      rintro rfl
      exact absurd hc (by decide)
  | number => exact ⟨_, _, by rw [prettyAt], by decide, by decide⟩
  | string t => exact ⟨'"', _, by rw [prettyAt]; rfl, by decide, by decide⟩
  | array is =>
      cases is with
      | nil => exact ⟨_, _, by rw [prettyAt], by decide, by decide⟩
      | cons i is => exact ⟨_, _, by rw [prettyAt]; rfl, by decide, by decide⟩
  | object ms =>
      cases ms with
      | nil => exact ⟨_, _, by rw [prettyAt], by decide, by decide⟩
      | cons m ms => exact ⟨_, _, by rw [prettyAt]; rfl, by decide, by decide⟩

-- ── Values ───────────────────────────────────────────────────────────────────────

/-- A tree is read back wherever its text stands: behind blanks, in front of what ends a number. Every
    step into a tree takes a character at least, so twice the length of its text bounds the depth. -/
def ReadsBack (t : JsonTree) : Prop :=
  ∀ ⦃indent bound bs rest⦄, 2 * (prettyAt indent t).length ≤ bound → (∀ c ∈ bs, isBlank c = true) →
    EndsNumber rest → readValue bound (bs ++ (prettyAt indent t ++ rest)) = some (t, rest)

/-- No text is empty, so a bound of none never arises. -/
theorem ReadsBack.of_succ {t : JsonTree}
    (h : ∀ ⦃indent bound bs rest⦄, 2 * (prettyAt indent t).length ≤ bound + 1 →
      (∀ c ∈ bs, isBlank c = true) → EndsNumber rest →
        readValue (bound + 1) (bs ++ (prettyAt indent t ++ rest)) = some (t, rest)) :
    t.ReadsBack := by
  intro indent bound bs rest hbound hbs hrest
  cases bound with
  | zero =>
      obtain ⟨c, cs, hcs, -⟩ := exists_prettyAt indent t
      rw [hcs, List.length_cons] at hbound
      omega
  | succ bound => exact h hbound hbs hrest

theorem readsBack_null : ReadsBack .null := by
  refine .of_succ fun indent bound bs rest hbound hbs hrest => ?_
  rw [readValue, skipBlanks_append hbs, prettyAt]
  rfl

theorem readsBack_bool (b : Bool) : ReadsBack (.bool b) := by
  refine .of_succ fun indent bound bs rest hbound hbs hrest => ?_
  cases b <;> rw [readValue, skipBlanks_append hbs, prettyAt] <;> rfl

/-- The first digit of a number is none of the characters that start another value. -/
theorem readsBack_natural (n : Nat) : ReadsBack (.natural n) := by
  refine .of_succ fun indent bound bs rest hbound hbs hrest => ?_
  have hread := readNumber_toDigits n hrest
  obtain ⟨c, cs, hcs, hdigits⟩ := digits_repr n
  have hc := hdigits c (List.mem_cons_self ..)
  rw [Nat.toList_repr] at hcs
  rw [hcs] at hread
  rw [prettyAt, hcs, readValue, skipBlanks_append hbs, List.cons_append,
    skipBlanks_cons (isBlank_of_isDigit hc)]
  split
  · next heq => cases (List.cons.inj heq).1; exact absurd hc (by decide)
  · next heq => cases (List.cons.inj heq).1; exact absurd hc (by decide)
  · next heq => cases (List.cons.inj heq).1; exact absurd hc (by decide)
  · next heq => cases (List.cons.inj heq).1; exact absurd hc (by decide)
  · next heq => cases (List.cons.inj heq).1; exact absurd hc (by decide)
  · next heq => cases (List.cons.inj heq).1; exact absurd hc (by decide)
  · exact hread

theorem readsBack_string (s : String) : ReadsBack (.string (some s)) := by
  refine .of_succ fun indent bound bs rest hbound hbs hrest => ?_
  rw [readValue, skipBlanks_append hbs, prettyAt, literal_append, skipBlanks_cons (by rfl)]
  show (readText _).map _ = _
  rw [readText_literal]
  rfl

-- ── Arrays ───────────────────────────────────────────────────────────────────────

/-- Items are read back up to the bracket after them, by induction on the list: after an item stands a
    comma or the line of the bracket, and either ends a number. -/
theorem readItems_of_readsBack {i : JsonTree} {is : List JsonTree} (hi : i.ReadsBack)
    (his : ∀ j ∈ is, j.ReadsBack) {n m bound : Nat} {bs rest : List Char}
    (hbs : ∀ c ∈ bs, isBlank c = true)
    (hbound : 2 * (prettyAt n i ++ prettyItems n is).length < bound) :
    readItems bound (bs ++ (prettyAt n i ++ (prettyItems n is ++ (newLine m ++ ']' :: rest))))
      = some (i :: is, rest) := by
  induction is generalizing i bound bs with
  | nil =>
      obtain ⟨bound, rfl⟩ : ∃ b, bound = b + 1 := ⟨bound - 1, by omega⟩
      rw [List.length_append] at hbound
      rw [readItems, prettyItems, List.nil_append, hi (by omega) hbs (endsNumber_newLine m _),
        Option.bind_some]
      dsimp only
      rw [skipBlanks_append (isBlank_newLine m), skipBlanks_cons (by rfl)]
      rfl
  | cons j js ih =>
      obtain ⟨bound, rfl⟩ : ∃ b, bound = b + 1 := ⟨bound - 1, by omega⟩
      obtain ⟨hj, hjs⟩ := List.forall_mem_cons.mp his
      have hitems : prettyItems n (j :: js) ++ (newLine m ++ ']' :: rest)
          = ',' :: (newLine n ++ (prettyAt n j ++ (prettyItems n js ++ (newLine m ++ ']' :: rest)))) := by
        simp only [prettyItems, List.cons_append, List.append_assoc]
      rw [prettyItems] at hbound
      simp only [List.length_append, List.length_cons] at hbound
      rw [readItems, hitems, hi (by omega) hbs (endsNumber_comma _), Option.bind_some]
      show (readItems bound _).map _ = _
      rw [ih hj hjs (isBlank_newLine n) (by rw [List.length_append]; omega)]
      rfl

/-- What opens with a bracket and no second one behind it has items. -/
theorem readValue_items {bound : Nat} {cs rest body : List Char} {c : Char}
    (hcs : skipBlanks cs = '[' :: rest) (hrest : skipBlanks rest = c :: body) (hc : c ≠ ']') :
    readValue (bound + 1) cs = (readItems bound (c :: body)).map fun next => (.array next.1, next.2) := by
  simp only [readValue, hcs, hrest]
  split
  · next heq => cases heq; exact absurd rfl hc
  · rfl

theorem readsBack_array {is : List JsonTree} (h : ∀ i ∈ is, i.ReadsBack) : ReadsBack (.array is) := by
  refine .of_succ fun indent bound bs rest hbound hbs hrest => ?_
  cases is with
  | nil =>
      rw [readValue, skipBlanks_append hbs, prettyAt]
      rfl
  | cons i is =>
      obtain ⟨hi, his⟩ := List.forall_mem_cons.mp h
      obtain ⟨c, cs, hcs, hblank, hc⟩ := exists_prettyAt (indent + 2) i
      have htext : prettyAt indent (.array (i :: is)) ++ rest
          = '[' :: (newLine (indent + 2) ++ (prettyAt (indent + 2) i ++
              (prettyItems (indent + 2) is ++ (newLine indent ++ ']' :: rest)))) := by
        simp only [prettyAt, List.cons_append, List.append_assoc, List.nil_append]
      rw [prettyAt] at hbound
      simp only [List.length_append, List.length_cons] at hbound
      have hitems : readItems bound ([] ++ (prettyAt (indent + 2) i ++
          (prettyItems (indent + 2) is ++ (newLine indent ++ ']' :: rest)))) = some (i :: is, rest) :=
        readItems_of_readsBack hi his (by simp) (by rw [List.length_append]; omega)
      rw [List.nil_append, hcs, List.cons_append] at hitems
      rw [htext, readValue_items (by rw [skipBlanks_append hbs, skipBlanks_cons (by rfl)])
        (by rw [skipBlanks_append (isBlank_newLine _), hcs, List.cons_append, skipBlanks_cons hblank]) hc,
        hitems]
      rfl

-- ── Records ──────────────────────────────────────────────────────────────────────

/-- Members whose keys all have a value. -/
def keyed (ms : List (String × JsonTree)) : List (JsonText × JsonTree) :=
  ms.map fun (k, v) => (some k, v)

@[simp] theorem keyed_nil : keyed [] = [] := rfl

@[simp] theorem keyed_cons (m : String × JsonTree) (ms : List (String × JsonTree)) :
    keyed (m :: ms) = (some m.1, m.2) :: keyed ms := rfl

/-- A member is read back: behind a comma there are more, and the brace ends them. -/
theorem readMembers_succ {v : JsonTree} (hv : v.ReadsBack) (k : String) {n bound : Nat}
    {bs rest : List Char} (hbs : ∀ c ∈ bs, isBlank c = true) (hbound : 2 * (prettyAt n v).length ≤ bound)
    (hrest : EndsNumber rest) :
    (∀ next, skipBlanks rest = ',' :: next →
      readMembers (bound + 1) (bs ++ (literal (some k) ++ ':' :: ' ' :: (prettyAt n v ++ rest)))
        = (readMembers bound next).map fun after => ((some k, v) :: after.1, after.2)) ∧
    ∀ next, skipBlanks rest = '\x7d' :: next →
      readMembers (bound + 1) (bs ++ (literal (some k) ++ ':' :: ' ' :: (prettyAt n v ++ rest)))
        = some ([(some k, v)], next) := by
  have hvalue : readValue bound ([' '] ++ (prettyAt n v ++ rest)) = some (v, rest) :=
    hv hbound (by simp [isBlank]) hrest
  have hquote : skipBlanks (bs ++ (literal (some k) ++ ':' :: ' ' :: (prettyAt n v ++ rest)))
      = '"' :: (k.toList.flatMap escaped ++ '"' :: ':' :: ' ' :: (prettyAt n v ++ rest)) := by
    rw [skipBlanks_append hbs, literal_append, skipBlanks_cons (by rfl)]
  have hcolon : skipBlanks (':' :: ' ' :: (prettyAt n v ++ rest)) = ':' :: ' ' :: (prettyAt n v ++ rest) :=
    skipBlanks_cons (by rfl) _
  rw [List.singleton_append] at hvalue
  constructor
  · intro next hnext
    simp only [readMembers, hquote, readText_literal, Option.bind_some, hcolon, hvalue, hnext]
  · intro next hnext
    simp only [readMembers, hquote, readText_literal, Option.bind_some, hcolon, hvalue, hnext]

/-- Members are read back up to the brace after them, by induction on the list. -/
theorem readMembers_of_readsBack {w : String × JsonTree} {ms : List (String × JsonTree)}
    (hw : w.2.ReadsBack) (hms : ∀ m ∈ ms, m.2.ReadsBack) {n m bound : Nat} {bs rest : List Char}
    (hbs : ∀ c ∈ bs, isBlank c = true)
    (hbound : 2 * (prettyAt n w.2 ++ prettyMembers n (keyed ms)).length < bound) :
    readMembers bound (bs ++ (literal (some w.1) ++ ':' :: ' ' :: (prettyAt n w.2 ++
        (prettyMembers n (keyed ms) ++ (newLine m ++ '\x7d' :: rest)))))
      = some (keyed (w :: ms), rest) := by
  induction ms generalizing w bound bs with
  | nil =>
      obtain ⟨bound, rfl⟩ : ∃ b, bound = b + 1 := ⟨bound - 1, by omega⟩
      rw [List.length_append] at hbound
      rw [keyed_nil, prettyMembers, List.nil_append]
      refine (readMembers_succ hw w.1 hbs (by omega) (endsNumber_newLine m _)).2 rest ?_
      rw [skipBlanks_append (isBlank_newLine m), skipBlanks_cons (by rfl)]
  | cons w' ms ih =>
      obtain ⟨bound, rfl⟩ : ∃ b, bound = b + 1 := ⟨bound - 1, by omega⟩
      obtain ⟨hw', hms⟩ := List.forall_mem_cons.mp hms
      have hmembers : prettyMembers n (keyed (w' :: ms)) ++ (newLine m ++ '\x7d' :: rest)
          = ',' :: (newLine n ++ (literal (some w'.1) ++ ':' :: ' ' :: (prettyAt n w'.2 ++
              (prettyMembers n (keyed ms) ++ (newLine m ++ '\x7d' :: rest))))) := by
        simp only [keyed_cons, prettyMembers, List.cons_append, List.append_assoc]
      rw [keyed_cons, prettyMembers] at hbound
      simp only [List.length_append, List.length_cons] at hbound
      rw [hmembers, (readMembers_succ hw w.1 hbs (by omega) (endsNumber_comma _)).1 _
        (skipBlanks_cons (by rfl) _), ih hw' hms (isBlank_newLine n) (by rw [List.length_append]; omega)]
      rfl

/-- What opens with a brace and a quote behind it has members. -/
theorem readValue_members {bound : Nat} {cs rest body : List Char}
    (hcs : skipBlanks cs = '\x7b' :: rest) (hrest : skipBlanks rest = '"' :: body) :
    readValue (bound + 1) cs
      = (readMembers bound ('"' :: body)).map fun next => (.object next.1, next.2) := by
  simp only [readValue, hcs, hrest]
  rfl

theorem readsBack_object {ms : List (String × JsonTree)} (h : ∀ m ∈ ms, m.2.ReadsBack) :
    ReadsBack (.object (keyed ms)) := by
  refine .of_succ fun indent bound bs rest hbound hbs hrest => ?_
  cases ms with
  | nil =>
      rw [readValue, skipBlanks_append hbs, keyed_nil, prettyAt]
      rfl
  | cons w ms =>
      obtain ⟨hw, hms⟩ := List.forall_mem_cons.mp h
      have htext : prettyAt indent (.object (keyed (w :: ms))) ++ rest
          = '\x7b' :: (newLine (indent + 2) ++ (literal (some w.1) ++ ':' :: ' ' ::
              (prettyAt (indent + 2) w.2 ++ (prettyMembers (indent + 2) (keyed ms) ++
                (newLine indent ++ '\x7d' :: rest))))) := by
        simp only [keyed_cons, prettyAt, List.cons_append, List.append_assoc, List.nil_append]
      rw [keyed_cons, prettyAt] at hbound
      simp only [List.length_append, List.length_cons] at hbound
      have hmembers : readMembers bound ([] ++ (literal (some w.1) ++ ':' :: ' ' ::
          (prettyAt (indent + 2) w.2 ++ (prettyMembers (indent + 2) (keyed ms) ++
            (newLine indent ++ '\x7d' :: rest))))) = some (keyed (w :: ms), rest) :=
        readMembers_of_readsBack hw hms (by simp) (by rw [List.length_append]; omega)
      rw [List.nil_append, literal_append] at hmembers
      rw [htext, readValue_members (by rw [skipBlanks_append hbs, skipBlanks_cons (by rfl)])
        (by rw [skipBlanks_append (isBlank_newLine _), literal_append, skipBlanks_cons (by rfl)]), hmembers]
      rfl

-- ── Trees ────────────────────────────────────────────────────────────────────────

/-- The texts and the numbers of a tree all have a value. -/
inductive HasValues : JsonTree → Prop where
  | null : HasValues .null
  | bool (b : Bool) : HasValues (.bool b)
  | natural (n : Nat) : HasValues (.natural n)
  | string (s : String) : HasValues (.string (some s))
  | array {is : List JsonTree} (items : ∀ i ∈ is, HasValues i) : HasValues (.array is)
  | object {ms : List (String × JsonTree)} (values : ∀ m ∈ ms, HasValues m.2) :
      HasValues (.object (keyed ms))

theorem HasValues.readsBack {t : JsonTree} (h : t.HasValues) : t.ReadsBack := by
  induction h with
  | null => exact readsBack_null
  | bool b => exact readsBack_bool b
  | natural n => exact readsBack_natural n
  | string s => exact readsBack_string s
  | array _ ih => exact readsBack_array ih
  | object _ ih => exact readsBack_object ih

/-- **A tree whose texts and numbers have a value is read back from its text.** -/
theorem parse?_pretty {t : JsonTree} (h : t.HasValues) : parse? t.pretty = some t := by
  have hread : readValue (2 * (prettyAt 0 t).length + 2) ([] ++ (prettyAt 0 t ++ [])) = some (t, []) :=
    h.readsBack (by omega) (by simp) endsNumber_nil
  rw [List.nil_append, List.append_nil] at hread
  rw [parse?, pretty, String.toList_ofList, String.length_ofList, hread]
  rfl

-- ── Looking into a tree ──────────────────────────────────────────────────────────

/-- A key of a record has its value where no other key is the same. -/
theorem member?_keyed {ms : List (String × JsonTree)} (h : (ms.map Prod.fst).Nodup)
    {m : String × JsonTree} (hm : m ∈ ms) : member? m.1 (keyed ms) = some (some m.2) := by
  have hnone : ((keyed ms).any fun m => m.1.isNone) = false := by
    simp [keyed]
  have hfilter : ((keyed ms).filter fun w => w.1 == some m.1) = [(some m.1, m.2)] := by
    induction ms with
    | nil => exact absurd hm List.not_mem_nil
    | cons w ms ih =>
        obtain ⟨hw, hms⟩ := List.nodup_cons.mp h
        rw [keyed_cons]
        rcases List.mem_cons.mp hm with rfl | hm
        · rw [List.filter_cons_of_pos (by simp), List.cons.injEq]
          refine ⟨rfl, List.filter_eq_nil_iff.mpr fun w hw' => ?_⟩
          obtain ⟨u, hu, rfl⟩ := List.mem_map.mp hw'
          have hne : u.1 ≠ m.1 := fun heq => hw (heq ▸ List.mem_map_of_mem hu)
          simpa using hne
        · have hne : w.1 ≠ m.1 := fun heq => hw (heq ▸ List.mem_map_of_mem hm)
          rw [List.filter_cons_of_neg (by simpa using hne)]
          exact ih hms hm (by simp [keyed])
  rw [member?, hnone, hfilter]
  rfl

/-- **The fields of a record are its values, in the order of its keys.** -/
theorem fields?_record {ms : List (String × JsonTree)} (h : (ms.map Prod.fst).Nodup) :
    fields? (ms.map Prod.fst) (record ms) = some (ms.map fun m => some m.2) := by
  have hread : ∀ ws : List (String × JsonTree), (∀ w ∈ ws, w ∈ ms) →
      (ws.map Prod.fst).mapM (fun name => member? name (keyed ms)) = some (ws.map fun m => some m.2) := by
    intro ws hws
    induction ws with
    | nil => rfl
    | cons w ws ih =>
        obtain ⟨hw, hws⟩ := List.forall_mem_cons.mp hws
        rw [List.map_cons, List.mapM_cons, member?_keyed h hw, ih hws]
        rfl
  exact hread ms fun _ hm => hm

/-- A list is read back where every one of its elements is. -/
theorem listOf?_map {α : Type} {read : JsonTree → Option α} {write : α → JsonTree}
    (h : ∀ a, read (write a) = some a) (as : List α) : listOf? read (.array (as.map write)) = some as := by
  show (as.map write).mapM read = some as
  induction as with
  | nil => rfl
  | cons a as ih =>
      rw [List.map_cons, List.mapM_cons, h, ih]
      rfl

theorem hasValues_record {ms : List (String × JsonTree)} (h : ∀ m ∈ ms, m.2.HasValues) :
    (record ms).HasValues :=
  .object h

theorem hasValues_map {α : Type} {write : α → JsonTree} (h : ∀ a, (write a).HasValues) (as : List α) :
    (JsonTree.array (as.map write)).HasValues := by
  refine .array fun i hi => ?_
  obtain ⟨a, -, rfl⟩ := List.mem_map.mp hi
  exact h a

end JsonTree

open JsonTree

-- ── Reports ──────────────────────────────────────────────────────────────────────

@[simp] theorem Scalar.ofTree?_toTree (s : Scalar) : ofTree? s.toTree = some s :=
  ofKeyword?_keyword s

/-- A flag has a value of 64 bits, which is the range that a reader of flags keeps to. -/
@[simp] theorem Flag.ofTree?_toTree (f : Flag) : ofTree? f.toTree = some f := by
  have hfields : f.toTree.fields? ["name", "value"]
      = some [some (ofText f.name), some (.natural f.value.toNat)] :=
    @fields?_record [("name", ofText f.name), ("value", .natural f.value.toNat)] (by simp)
  have hvalue : f.value.toNat < Scalar.uint64.capacity := f.value.toNat_lt
  rw [ofTree?, hfields]
  show (if f.value.toNat < Scalar.uint64.capacity then some ⟨f.name, UInt64.ofNat f.value.toNat⟩ else none)
    = some f
  rw [if_pos hvalue, UInt64.ofNat_toNat]

@[simp] theorem FlagSet.ofTree?_toTree (s : FlagSet) : ofTree? s.toTree = some s := by
  have hfields : s.toTree.fields? ["full_name", "width", "flags"]
      = some [some (ofText s.fullName), some s.width.toTree, some (.array (s.flags.map Flag.toTree))] :=
    @fields?_record [("full_name", ofText s.fullName), ("width", s.width.toTree),
      ("flags", .array (s.flags.map Flag.toTree))] (by simp)
  rw [ofTree?, hfields]
  dsimp only
  rw [Scalar.ofTree?_toTree, listOf?_map Flag.ofTree?_toTree]
  rfl

@[simp] theorem RetypedField.ofTree?_toTree (r : RetypedField) : ofTree? r.toTree = some r := by
  have hfields : r.toTree.fields? ["message", "field", "bitmap", "width"]
      = some [some (ofText r.message), some (ofText r.field), some (ofText r.flagSet),
          some r.width.toTree] :=
    @fields?_record [("message", ofText r.message), ("field", ofText r.field),
      ("bitmap", ofText r.flagSet), ("width", r.width.toTree)] (by simp)
  rw [ofTree?, hfields]
  dsimp only
  rw [Scalar.ofTree?_toTree]
  rfl

namespace Report

/-- A report without a package says null, which is read as none. -/
theorem ofTree?_toTree (r : Report) : ofTree? r.toTree = some r := by
  have hfields : r.toTree.fields? ["package", "bitmaps", "retyped"]
      = some [some ((r.package.map ofText).getD .null), some (.array (r.flagSets.map FlagSet.toTree)),
          some (.array (r.retyped.map RetypedField.toTree))] :=
    @fields?_record [("package", (r.package.map ofText).getD .null),
      ("bitmaps", .array (r.flagSets.map FlagSet.toTree)),
      ("retyped", .array (r.retyped.map RetypedField.toTree))] (by simp)
  have hpackage : packageOf? (some ((r.package.map ofText).getD .null)) = some r.package := by
    cases r.package with
    | none => rfl
    | some s => rfl
  rw [ofTree?, hfields]
  dsimp only
  rw [hpackage, listOf?_map FlagSet.ofTree?_toTree, listOf?_map RetypedField.ofTree?_toTree]
  rfl

theorem hasValues_toTree (r : Report) : r.toTree.HasValues := by
  have hflag : ∀ f : Flag, f.toTree.HasValues := fun f =>
    hasValues_record (by simp [ofText, HasValues.string, HasValues.natural])
  have hset : ∀ s : FlagSet, s.toTree.HasValues := fun s =>
    hasValues_record (by simp [ofText, Scalar.toTree, HasValues.string, hasValues_map hflag])
  have hfield : ∀ r : RetypedField, r.toTree.HasValues := fun r =>
    hasValues_record (by simp [ofText, Scalar.toTree, HasValues.string])
  have hpackage : ((r.package.map ofText).getD .null).HasValues := by
    cases r.package with
    | none => exact .null
    | some s => exact .string s
  exact hasValues_record (by simp [hpackage, hasValues_map hset, hasValues_map hfield])

/-- **A report is read back from its document as it was**: with a package or without, whatever texts,
values, storage types and lists it has. -/
theorem ofJson?_toJson (r : Report) : ofJson? r.toJson = some r := by
  show (parse? r.toTree.pretty).bind ofTree? = some r
  rw [parse?_pretty r.hasValues_toTree, Option.bind_some, ofTree?_toTree]

end Report

end FlagSchema
