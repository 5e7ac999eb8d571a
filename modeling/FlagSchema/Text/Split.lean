/-!
# Splitting

The parts of a text between the places of one character.

* **`Text.join_splitAt`**: the parts with the character between them make up the text.
* **`Text.notMem_of_mem_splitAt`**: no part has the character.
* **`Text.splitAt_append`**: the character between two texts separates their parts.
-/

namespace FlagSchema.Text

/-- The parts of a text between the places of a character; a text without it is one part. -/
def splitAt (c : Char) : List Char → List (List Char)
  | []      => [[]]
  | d :: ds =>
    if d = c then [] :: splitAt c ds
    else
      match splitAt c ds with
      | []              => [[d]]
      | part :: others => (d :: part) :: others

theorem splitAt_ne_nil (c : Char) (cs : List Char) : splitAt c cs ≠ [] := by
  cases cs with
  | nil => simp [splitAt]
  | cons d ds =>
    simp only [splitAt]
    split
    · simp
    · split <;> simp

/-- The parts with the character between them make up the text. -/
theorem join_splitAt (c : Char) (cs : List Char) : [c].intercalate (splitAt c cs) = cs := by
  induction cs with
  | nil => rfl
  | cons d ds ih =>
    simp only [splitAt]
    cases h : splitAt c ds with
    | nil => exact absurd h (splitAt_ne_nil c ds)
    | cons part others =>
      rw [h] at ih
      split
      · next hd => rw [List.intercalate_cons_cons, ih, hd]; rfl
      · cases others with
        | nil => simpa using ih
        | cons other rest =>
          rw [List.intercalate_cons_cons] at ih ⊢
          rw [← ih]
          rfl

/-- No part has the character. -/
theorem notMem_of_mem_splitAt {c : Char} {cs part : List Char} (h : part ∈ splitAt c cs) :
    c ∉ part := by
  induction cs generalizing part with
  | nil =>
    rw [splitAt, List.mem_singleton] at h
    simp [h]
  | cons d ds ih =>
    simp only [splitAt] at h
    split at h
    · rcases List.mem_cons.1 h with rfl | h
      · simp
      · exact ih h
    · next hd =>
      split at h
      · rw [List.mem_singleton] at h
        rw [h, List.mem_singleton]
        exact fun hc => hd hc.symm
      · next first others hs =>
        rcases List.mem_cons.1 h with rfl | h
        · intro hc
          rcases List.mem_cons.1 hc with hc | hc
          · exact hd hc.symm
          · exact ih (hs ▸ List.mem_cons_self) hc
        · exact ih (hs ▸ List.mem_cons_of_mem _ h)

/-- A text without the character is one part. -/
theorem splitAt_of_notMem {c : Char} {cs : List Char} (h : c ∉ cs) : splitAt c cs = [cs] := by
  induction cs with
  | nil => rfl
  | cons d ds ih =>
    rw [List.mem_cons, not_or] at h
    obtain ⟨hd, hds⟩ := h
    rw [splitAt, if_neg (Ne.symm hd), ih hds]

/-- The character between two texts separates their parts. -/
theorem splitAt_append (c : Char) (cs ds : List Char) :
    splitAt c (cs ++ c :: ds) = splitAt c cs ++ splitAt c ds := by
  induction cs with
  | nil => simp [splitAt]
  | cons d cs ih =>
    rw [List.cons_append, splitAt, splitAt, ih]
    cases h : splitAt c cs with
    | nil => exact absurd h (splitAt_ne_nil c cs)
    | cons part others => split <;> rfl

end FlagSchema.Text
