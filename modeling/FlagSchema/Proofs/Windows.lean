import FlagSchema.Edit

/-!
# Texts that differ in windows

Two texts that agree everywhere except in windows, each of which holds another text in the second. Edits
whose spans are the windows lead from the first to the second, in whatever order they are given.

* **`Edit.Windows`**: two texts agree except in the spans of edits.
* **`Edit.Windows.splice`**, **`Edit.Windows.apply`**: making the edits leads from one to the other.
* **`Edit.Windows.disjoint`**, **`Edit.Windows.inside`**: windows are not empty, lie in the text one
  behind another, and start and end between characters.
-/

namespace FlagSchema

namespace Edit

/-- Two texts from an offset on agree except in the spans of edits, where the first holds some text and
    the second the text of the edit. -/
inductive Windows : Nat → List Edit → List Char → List Char → Prop where
  | same (offset : Nat) (cs : List Char) : Windows offset [] cs cs
  | window {offset : Nat} {e : Edit} {es : List Edit} {kept old cs ds : List Char}
      (start : e.span.start = offset + Text.byteSize kept)
      (stop : e.span.stop = e.span.start + Text.byteSize old)
      (notEmpty : old ≠ [])
      (rest : Windows e.span.stop es cs ds) :
      Windows offset (e :: es) (kept ++ old ++ cs) (kept ++ e.text.toList ++ ds)

namespace Windows

variable {offset : Nat} {es : List Edit} {cs ds : List Char}

/-- A text in front of both moves their windows. -/
theorem prepend (h : Windows offset es cs ds) {offset' : Nat} (front : List Char)
    (ho : offset = offset' + Text.byteSize front) :
    Windows offset' es (front ++ cs) (front ++ ds) := by
  cases h with
  | same => exact .same ..
  | @window _ e es kept old cs ds start stop notEmpty rest =>
      rw [← List.append_assoc, ← List.append_assoc, ← List.append_assoc, ← List.append_assoc]
      refine .window ?_ stop notEmpty rest
      rw [start, ho, Text.byteSize_append, Nat.add_assoc]

/-- Making the edits one after another leads from the first text to the second. -/
theorem splice (h : Windows offset es cs ds) : Edit.splice offset es cs = ds := by
  induction h with
  | same => rfl
  | @window offset e es kept old cs ds start stop notEmpty rest ih =>
      have hkept : e.span.start - offset = Text.byteSize kept := by omega
      have hold : e.span.stop - e.span.start = Text.byteSize old := by omega
      rw [Edit.splice, hkept, List.append_assoc, Text.splitAtByte_byteSize]
      dsimp only
      rw [hold, Text.splitAtByte_byteSize]
      dsimp only
      rw [ih]

/-- Every window starts at the offset or later, and is not empty. -/
theorem start_le (h : Windows offset es cs ds) :
    ∀ e ∈ es, offset ≤ e.span.start ∧ e.span.start < e.span.stop := by
  induction h with
  | same => exact nofun
  | @window offset e es kept old cs ds start stop notEmpty rest ih =>
      have hpos := Text.byteSize_pos notEmpty
      intro e' he'
      rcases List.mem_cons.mp he' with rfl | he'
      · omega
      · have := ih e' he'
        omega

/-- A window ends before the next one starts. -/
theorem disjoint (h : Windows offset es cs ds) :
    es.Pairwise fun a b => a.span.stop ≤ b.span.start := by
  induction h with
  | same => exact .nil
  | window start stop notEmpty rest ih =>
      exact List.pairwise_cons.mpr ⟨fun b hb => (rest.start_le b hb).1, ih⟩

/-- Every window lies in the text and starts and ends between characters. -/
theorem inside (h : Windows offset es cs ds) :
    ∀ e ∈ es, ∃ before old after, cs = before ++ old ++ after ∧
      e.span.start = offset + Text.byteSize before ∧
      e.span.stop = e.span.start + Text.byteSize old := by
  induction h with
  | same => exact nofun
  | @window offset e es kept old cs ds start stop notEmpty rest ih =>
      intro e' he'
      rcases List.mem_cons.mp he' with rfl | he'
      · exact ⟨kept, old, cs, rfl, start, stop⟩
      · obtain ⟨before, old', after, rfl, hstart, hstop⟩ := ih e' he'
        refine ⟨kept ++ old ++ before, old', after, ?_, ?_, hstop⟩
        · simp only [List.append_assoc]
        · rw [hstart, stop, start, Text.byteSize_append, Text.byteSize_append]
          omega

/-- Windows start one behind another. -/
theorem start_lt (h : Windows offset es cs ds) :
    es.Pairwise fun a b => a.span.start < b.span.start := by
  refine h.disjoint.imp_of_mem ?_
  intro a b ha _ hab
  exact Nat.lt_of_lt_of_le (h.start_le a ha).2 hab

/-- Windows that start at the same offset are the same. -/
theorem eq_of_start (h : Windows offset es cs ds) {a b : Edit} (ha : a ∈ es) (hb : b ∈ es)
    (he : a.span.start = b.span.start) : a = b := by
  refine List.Pairwise.forall_of_forall_of_flip (R := fun a b => a.span.start = b.span.start → a = b)
    (fun _ _ _ => rfl) ?_ ?_ ha hb he
  · exact h.start_lt.imp fun hab he => absurd he (Nat.ne_of_lt hab)
  · exact h.start_lt.imp fun hab he => absurd he.symm (Nat.ne_of_lt hab)

/-- Edits given in another order are made in the order of their windows. -/
theorem sorted_eq (h : Windows offset es cs ds) {edits : List Edit} (hp : edits.Perm es) :
    Edit.sorted edits = es := by
  have hsorted : (Edit.sorted edits).Pairwise fun a b => a.span.start ≤ b.span.start := by
    have hpairwise := @List.pairwise_mergeSort _ (fun a b : Edit => decide (a.span.start ≤ b.span.start))
      (by intro a b c hab hbc; simp only [decide_eq_true_eq] at hab hbc ⊢; omega)
      (by intro a b; simp only [Bool.or_eq_true, decide_eq_true_eq]; omega) edits
    exact hpairwise.imp fun hab => of_decide_eq_true hab
  have hle : es.Pairwise fun a b => a.span.start ≤ b.span.start := h.start_lt.imp Nat.le_of_lt
  have hperm : (Edit.sorted edits).Perm es := (List.mergeSort_perm ..).trans hp
  refine hperm.eq_of_pairwise ?_ hsorted hle
  intro a b ha hb hab hba
  exact h.eq_of_start (hperm.subset ha) hb (Nat.le_antisymm hab hba)

/-- **Edits lead from one text to the other, in whatever order they are given.** -/
theorem apply (h : Windows 0 es cs ds) {edits : List Edit} (hp : edits.Perm es) :
    Edit.apply cs edits = ds := by
  rw [Edit.apply, h.sorted_eq hp, h.splice]

end Windows

end Edit

end FlagSchema
