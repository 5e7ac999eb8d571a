import Mathlib.Data.List.TakeWhile
import FlagSchema.Symbols
import FlagSchema.Text.Split

/-!
# What names refer to

A name is looked up in the scope that it is written in and in the scopes around it, from the inside out. These
are what is left of the scope when dotted parts at its end are cut off, and they get shorter on the way to the
root, which is where every search ends. So the first definition that is found is the innermost.

* **`Encloses`**: a scope is another one without some of its last parts.
* **`mem_enclosingScopes_iff`**, **`pairwise_enclosingScopes`**: the scopes that are searched, and their order.
* **`Symbols.IsInnermost`**: the longest of the scopes in which a name is defined.
* **`Symbols.resolve?_innermost`**: what a name refers to is defined in that scope.
-/

namespace FlagSchema

open Text

/-- A scope encloses another if it is that one without some of its last dotted parts. Without any part it is the
    root, which is empty. -/
def Encloses (outer scope : String) : Prop :=
  ∃ n, outer.toList = ['.'].intercalate ((splitAt '.' scope.toList).take n)

-- ── Cutting off a part ───────────────────────────────────────────────────────────

/-- A part behind a dot is cut off with its dot. -/
theorem parentScope_append (front : List Char) {part : List Char} (h : '.' ∉ part) :
    parentScope (front ++ '.' :: part) = front := by
  have hpart : ∀ c ∈ part.reverse, decide (c ≠ '.') = true := by
    intro c hc
    exact decide_eq_true fun hdot => h (hdot ▸ List.mem_reverse.mp hc)
  have hreverse : (front ++ '.' :: part).reverse = part.reverse ++ '.' :: front.reverse := by
    rw [List.reverse_append, List.reverse_cons, List.append_assoc]
    rfl
  rw [parentScope, hreverse, List.dropWhile_append_of_pos hpart, List.dropWhile_cons_of_neg (by decide),
    List.drop_one, List.tail_cons, List.reverse_reverse]

/-- Around a scope of one part there is the root. -/
theorem parentScope_of_notMem {scope : List Char} (h : '.' ∉ scope) : parentScope scope = [] := by
  have hscope : ∀ c ∈ scope.reverse, decide (c ≠ '.') = true := by
    intro c hc
    exact decide_eq_true fun hdot => h (hdot ▸ List.mem_reverse.mp hc)
  rw [parentScope, List.dropWhile_eq_nil_iff.mpr hscope]
  rfl

/-- A text with a dot has a last one. -/
theorem exists_lastDot {scope : List Char} (h : '.' ∈ scope) :
    ∃ front part, scope = front ++ '.' :: part ∧ '.' ∉ part := by
  obtain ⟨part, front, hscope, hpart⟩ := List.eq_append_cons_of_mem (List.mem_reverse.mpr h)
  refine ⟨front.reverse, part.reverse, ?_, fun hdot => hpart (List.mem_reverse.mp hdot)⟩
  rw [← List.reverse_reverse scope, hscope, List.reverse_append, List.reverse_cons, List.append_assoc]
  rfl

/-- Nothing is left of the parts of the root. -/
theorem intercalate_take_root (n : Nat) : ['.'].intercalate ((splitAt '.' []).take n) = [] := by
  cases n with
  | zero => rfl
  | succ n => rw [splitAt, List.take_succ_cons, List.take_nil, List.intercalate_singleton]

/-- What is left of a scope when parts at its end are cut off is the scope, or is so left of the scope around
    it. -/
theorem take_parts_iff {scope cs : List Char} (h : scope ≠ []) :
    (∃ n, cs = ['.'].intercalate ((splitAt '.' scope).take n)) ↔
      cs = scope ∨ ∃ n, cs = ['.'].intercalate ((splitAt '.' (parentScope scope)).take n) := by
  by_cases hdot : '.' ∈ scope
  · obtain ⟨front, part, rfl, hpart⟩ := exists_lastDot hdot
    have hparts : splitAt '.' (front ++ '.' :: part) = splitAt '.' front ++ [part] := by
      rw [splitAt_append, splitAt_of_notMem hpart]
    have hwhole : ['.'].intercalate (splitAt '.' front ++ [part]) = front ++ '.' :: part := by
      rw [← hparts, join_splitAt]
    rw [parentScope_append front hpart, hparts]
    constructor
    · rintro ⟨n, rfl⟩
      by_cases hn : n ≤ (splitAt '.' front).length
      · exact .inr ⟨n, by rw [List.take_append_of_le_length hn]⟩
      · refine .inl ?_
        rw [List.take_of_length_le, hwhole]
        rw [List.length_append, List.length_singleton]
        omega
    · rintro (rfl | ⟨n, rfl⟩)
      · exact ⟨(splitAt '.' front ++ [part]).length, by rw [List.take_length, hwhole]⟩
      · refine ⟨min n (splitAt '.' front).length, ?_⟩
        rw [List.take_append_of_le_length (Nat.min_le_right ..), List.take_eq_take_min]
  · rw [parentScope_of_notMem hdot, splitAt_of_notMem hdot]
    constructor
    · rintro ⟨n, rfl⟩
      cases n with
      | zero => exact .inr ⟨0, rfl⟩
      | succ n => exact .inl (by rw [List.take_succ_cons, List.take_nil, List.intercalate_singleton])
    · rintro (rfl | ⟨n, rfl⟩)
      · exact ⟨1, by rw [List.take_succ_cons, List.take_nil, List.intercalate_singleton]⟩
      · exact ⟨0, intercalate_take_root n⟩

-- ── The scopes that are searched ─────────────────────────────────────────────────

/-- **The scopes that are searched are those that enclose the scope.** -/
theorem mem_enclosingScopes_iff {scope cs : List Char} :
    cs ∈ enclosingScopes scope ↔ ∃ n, cs = ['.'].intercalate ((splitAt '.' scope).take n) := by
  fun_induction enclosingScopes scope with
  | case1 =>
      rw [List.mem_singleton]
      constructor
      · rintro rfl
        exact ⟨0, rfl⟩
      · rintro ⟨n, rfl⟩
        exact intercalate_take_root n
  | case2 scope h hlt ih => rw [List.mem_cons, ih, take_parts_iff h]

/-- No scope around a scope is longer. -/
theorem length_le_of_mem_enclosingScopes {scope cs : List Char} (h : cs ∈ enclosingScopes scope) :
    cs.length ≤ scope.length := by
  fun_induction enclosingScopes scope with
  | case1 => exact (List.mem_singleton.mp h) ▸ Nat.le_refl _
  | case2 scope hne hlt ih =>
      rcases List.mem_cons.mp h with rfl | h
      · exact Nat.le_refl _
      · exact Nat.le_trans (ih h) (Nat.le_of_lt hlt)

/-- **Every scope that is searched is shorter than the one before.** -/
theorem pairwise_enclosingScopes (scope : List Char) :
    (enclosingScopes scope).Pairwise fun a b => b.length < a.length := by
  fun_induction enclosingScopes scope with
  | case1 => exact List.pairwise_singleton ..
  | case2 scope h hlt ih =>
      exact List.pairwise_cons.mpr
        ⟨fun cs hcs => Nat.lt_of_le_of_lt (length_le_of_mem_enclosingScopes hcs) hlt, ih⟩

/-- **The search ends at the root.** -/
theorem getLast?_enclosingScopes (scope : List Char) : (enclosingScopes scope).getLast? = some [] := by
  fun_induction enclosingScopes scope with
  | case1 => rfl
  | case2 scope h hlt ih => rw [List.getLast?_cons, ih, Option.getD_some]

-- ── The innermost definition ─────────────────────────────────────────────────────

/-- Of a list that gets shorter, the first element with a result is the longest one. -/
theorem findSome?_eq_some_iff_longest {α β : Type} {xs : List (List α)} {f : List α → Option β} {b : β}
    (h : xs.Pairwise fun x y => y.length < x.length) :
    xs.findSome? f = some b ↔
      ∃ x ∈ xs, f x = some b ∧ ∀ y ∈ xs, (f y).isSome = true → y.length ≤ x.length := by
  rw [List.findSome?_eq_some_iff]
  constructor
  · rintro ⟨front, x, back, rfl, hx, hfront⟩
    obtain ⟨-, hback, -⟩ := List.pairwise_append.mp h
    refine ⟨x, List.mem_append_right _ (List.mem_cons_self ..), hx, fun y hy hsome => ?_⟩
    rcases List.mem_append.mp hy with hy | hy
    · rw [hfront y hy] at hsome
      cases hsome
    · rcases List.mem_cons.mp hy with rfl | hy
      · exact Nat.le_refl _
      · exact Nat.le_of_lt ((List.pairwise_cons.mp hback).1 y hy)
  · rintro ⟨x, hmem, hx, hlongest⟩
    obtain ⟨front, back, rfl⟩ := List.append_of_mem hmem
    refine ⟨front, x, back, rfl, hx, fun y hy => ?_⟩
    obtain ⟨-, -, hshorter⟩ := List.pairwise_append.mp h
    have hlt := hshorter y hy x (List.mem_cons_self ..)
    cases hy' : f y with
    | none => rfl
    | some b' =>
        have hle := hlongest y (List.mem_append_left _ hy) (by rw [hy']; rfl)
        omega

namespace Symbols

variable {symbols : Symbols} {scope name : String}

/-- A scope is the innermost one for a name if the name is defined in it and it is the longest of the enclosing
    scopes of which that holds. -/
structure IsInnermost (symbols : Symbols) (scope name inner : String) : Prop where
  encloses : Encloses inner scope
  defined  : (symbols.get? (joinName inner name)).isSome = true
  longest  : ∀ outer, Encloses outer scope → (symbols.get? (joinName outer name)).isSome = true →
    outer.length ≤ inner.length

theorem getIn?_eq_some_iff {fullName : String} {d : Definition} :
    symbols.getIn? name scope = some (fullName, d) ↔
      fullName = joinName scope name ∧ symbols.get? fullName = some d := by
  rw [getIn?, Option.map_eq_some_iff]
  constructor
  · rintro ⟨d', hd', heq⟩
    cases heq
    exact ⟨rfl, hd'⟩
  · rintro ⟨rfl, hd⟩
    exact ⟨d, hd, rfl⟩

theorem isSome_getIn? : (symbols.getIn? name scope).isSome = (symbols.get? (joinName scope name)).isSome :=
  Option.isSome_map

/-- Without a dot in front, a name is searched for. -/
theorem resolve?_of_head (h : name.toList.head? ≠ some '.') :
    symbols.resolve? scope name =
      (enclosingScopes scope.toList).findSome? fun s => symbols.getIn? name (String.ofList s) := by
  unfold resolve?
  split
  · next absolute hname => exact absurd (by rw [hname]; rfl) h
  · rfl

/-- A scope encloses another if it is one of those that are searched. -/
theorem encloses_ofList_iff {cs : List Char} :
    Encloses (String.ofList cs) scope ↔ cs ∈ enclosingScopes scope.toList := by
  rw [Encloses, String.toList_ofList, mem_enclosingScopes_iff]

/-- What a name refers to is defined in the innermost scope for it. -/
theorem resolve?_eq_some_iff (h : name.toList.head? ≠ some '.') {fullName : String} {d : Definition} :
    symbols.resolve? scope name = some (fullName, d) ↔
      ∃ inner, symbols.IsInnermost scope name inner ∧ fullName = joinName inner name ∧
        symbols.get? fullName = some d := by
  rw [resolve?_of_head h, findSome?_eq_some_iff_longest (pairwise_enclosingScopes _)]
  constructor
  · rintro ⟨cs, hcs, hd, hlongest⟩
    obtain ⟨hname, hget⟩ := getIn?_eq_some_iff.mp hd
    refine ⟨String.ofList cs, ⟨encloses_ofList_iff.mpr hcs, ?_, fun outer houter hsome => ?_⟩, hname, hget⟩
    · rw [← hname, hget]
      rfl
    · rw [← String.ofList_toList (s := outer)] at houter
      have hle := hlongest outer.toList (encloses_ofList_iff.mp houter)
      rw [isSome_getIn?, String.ofList_toList] at hle
      rw [String.length_ofList]
      exact hle hsome
  · rintro ⟨inner, ⟨hencloses, hdefined, hlongest⟩, hname, hget⟩
    refine ⟨inner.toList, encloses_ofList_iff.mp (String.ofList_toList.symm ▸ hencloses), ?_, ?_⟩
    · rw [String.ofList_toList]
      exact getIn?_eq_some_iff.mpr ⟨hname, hget⟩
    · intro cs hcs hsome
      rw [isSome_getIn?] at hsome
      have hle := hlongest _ (encloses_ofList_iff.mpr hcs) hsome
      rw [String.length_ofList] at hle
      exact hle

/-- A name refers to nothing if it is defined in no enclosing scope. -/
theorem resolve?_eq_none_iff (h : name.toList.head? ≠ some '.') :
    symbols.resolve? scope name = none ↔
      ∀ outer, Encloses outer scope → symbols.get? (joinName outer name) = none := by
  rw [resolve?_of_head h, List.findSome?_eq_none_iff]
  constructor
  · intro hnone outer houter
    rw [← String.ofList_toList (s := outer)] at houter ⊢
    exact Option.map_eq_none_iff.mp (hnone _ (encloses_ofList_iff.mp houter))
  · intro hnone cs hcs
    exact Option.map_eq_none_iff.mpr (hnone _ (encloses_ofList_iff.mpr hcs))

/-- **A name refers to its innermost definition.** With a dot in front, it is the full name of what it refers to,
    whatever the scope. Otherwise it is looked up in the enclosing scopes, of which the longest one that defines
    it counts; it refers to nothing exactly if none does. Each of the scopes that are searched is shorter than the
    one before, and the last is the root. -/
theorem resolve?_innermost (symbols : Symbols) (scope name : String) :
    (∀ fullName, name.toList = '.' :: fullName.toList →
      symbols.resolve? scope name = (symbols.get? fullName).map fun d => (fullName, d)) ∧
    (name.toList.head? ≠ some '.' →
      (∀ fullName d, symbols.resolve? scope name = some (fullName, d) ↔
        ∃ inner, symbols.IsInnermost scope name inner ∧ fullName = joinName inner name ∧
          symbols.get? fullName = some d) ∧
      (symbols.resolve? scope name = none ↔
        ∀ outer, Encloses outer scope → symbols.get? (joinName outer name) = none)) ∧
    (enclosingScopes scope.toList).Pairwise (fun a b => b.length < a.length) ∧
    (enclosingScopes scope.toList).getLast? = some [] := by
  refine ⟨fun fullName hname => ?_, fun h => ⟨fun _ _ => resolve?_eq_some_iff h, resolve?_eq_none_iff h⟩,
    pairwise_enclosingScopes _, getLast?_enclosingScopes _⟩
  simp only [resolve?, hname, String.ofList_toList]
  rfl

/-- A set of flags of a package, and an enum of a message in it with the same name. -/
def shadowed : Symbols := ⟨[("p.M.Mode", .enum), ("p.Mode", .flags .uint32)]⟩

/-- From a message nested in that one, the name refers to the enum; behind an empty part, to the set. -/
theorem resolve?_innermost_shadowed :
    (∃ inner, shadowed.IsInnermost "p.M.N" "Mode" inner ∧ "p.M.Mode" = joinName inner "Mode" ∧
      shadowed.get? "p.M.Mode" = some .enum) ∧
    ∃ inner, shadowed.IsInnermost "p..M" "Mode" inner ∧ "p.Mode" = joinName inner "Mode" ∧
      shadowed.get? "p.Mode" = some (.flags .uint32) :=
  ⟨(((resolve?_innermost shadowed "p.M.N" "Mode").2.1 (by decide)).1 _ _).mp (by decide +kernel),
    (((resolve?_innermost shadowed "p..M" "Mode").2.1 (by decide)).1 _ _).mp (by decide +kernel)⟩

end Symbols

end FlagSchema
