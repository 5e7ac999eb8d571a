import FlagSchema.Proofs.Phrases
import FlagSchema.Proofs.Progress

/-!
# Constructs that are passed over

Blocks in braces are passed over with a count of the braces that are open, statements up to their semicolon. The
count ends at the brace that closes the block, whatever is in between, so that nothing in front of it is read and
nothing behind it is lost.

* **`Token.Balanced`**: tokens in which every brace is closed.
* **`skipDeep_balanced`**: they are passed over at every depth.
* **`skipBraces_ok`**, **`skipBraces_error`**: a block that is closed, and one that is not.
* **`Schema.Skipped`**, **`Schema.Unclosed`**: the constructs, and a block that goes on to the end of the input.
* **`Schema.Progress.advance_skipped`**: a construct is one step, and it adds nothing.
-/

namespace FlagSchema

open Token Reader

variable {source : List Char} {ts us : List Token}

-- ── Braces ───────────────────────────────────────────────────────────────────────

namespace Token

/-- Kinds of tokens in which every brace is closed. -/
inductive Balanced : List Kind → Prop where
  | nil : Balanced []
  | single {k : Kind} (opens : k ≠ .symbol '\x7b') (closes : k ≠ .symbol '\x7d') : Balanced [k]
  | append {ks ls : List Kind} (front : Balanced ks) (back : Balanced ls) : Balanced (ks ++ ls)
  | braces {ks : List Kind} (inner : Balanced ks) : Balanced (.symbol '\x7b' :: ks ++ [.symbol '\x7d'])

theorem balanced_of_plain {ks : List Kind} (h : ∀ k ∈ ks, k ≠ .symbol '\x7b' ∧ k ≠ .symbol '\x7d') : Balanced ks := by
  induction ks with
  | nil => exact .nil
  | cons k ks ih =>
      obtain ⟨hk, hks⟩ := List.forall_mem_cons.mp h
      exact (Balanced.single hk.1 hk.2).append (ih hks)

/-- Balanced tokens have as many braces that open as braces that close. -/
theorem Balanced.count_eq {ks : List Kind} (h : Balanced ks) :
    ks.count (.symbol '\x7b') = ks.count (.symbol '\x7d') := by
  induction h with
  | nil => rfl
  | single hopen hclose =>
      rw [List.count_singleton, List.count_singleton, if_neg (by simpa using hopen), if_neg (by simpa using hclose)]
  | append _ _ ih ih' => rw [List.count_append, List.count_append, ih, ih']
  | braces _ ih => simp [List.count_append, ih]

/-- Where no more braces close than were opened, none closes what is in front. -/
theorem not_balanced_of_count_le {body : List Kind}
    (h : ∀ ks ∈ body.inits, ks.count (.symbol '\x7d') ≤ ks.count (.symbol '\x7b')) :
    ∀ ks ls, body = ks ++ .symbol '\x7d' :: ls → ¬ Balanced ks := by
  rintro ks ls rfl hks
  have hcount := h (ks ++ [.symbol '\x7d']) (by simp [List.mem_inits])
  have hbalanced := hks.count_eq
  simp [List.count_append] at hcount
  omega

/-- Kinds of tokens that leave so many braces open, with balanced ones between them. -/
inductive Leaves : Nat → List Kind → Prop where
  | balanced {ks : List Kind} (h : Balanced ks) : Leaves 0 ks
  | brace {depth : Nat} {ks ls : List Kind} (h : Leaves depth ks) (inner : Balanced ls) :
      Leaves (depth + 1) (ks ++ .symbol '\x7b' :: ls)

theorem Leaves.append {depth : Nat} {ks ls : List Kind} (h : Leaves depth ks) (hls : Balanced ls) :
    Leaves depth (ks ++ ls) := by
  cases h with
  | balanced h => exact .balanced (h.append hls)
  | brace h inner =>
      rw [List.append_assoc, List.cons_append]
      exact .brace h (inner.append hls)

/-- The braces that tokens leave open are those of which the reader keeps count. -/
theorem leaves_of_nests {depth : Nat} (h : Nests ts depth) : Leaves depth (ts.map Token.kind) := by
  induction h with
  | nil => exact .balanced .nil
  | opens _ ht ih =>
      rw [List.map_append, List.map_singleton, ht]
      exact .brace ih .nil
  | @closes us depth t _ ht ih =>
      rw [List.map_append, List.map_singleton, ht]
      generalize us.map Token.kind = ks at ih
      cases ih with
      | brace h inner =>
          have hblock := h.append inner.braces
          rwa [List.cons_append, ← List.cons_append, ← List.append_assoc] at hblock
  | other _ hopen hclose ih =>
      rw [List.map_append, List.map_singleton]
      exact ih.append (.single hopen hclose)

end Token

-- ── Passing over tokens ──────────────────────────────────────────────────────────

/-- Everything up to the brace that closes one already passed, with so many more open inside. -/
def skipDeep (depth : Nat) : Reader Token :=
  iterate braceStep (.of_takes takes_braceStep) depth

/-- What a token does to the count of braces. -/
theorem skipDeep_cons {s : Stream} {t : Token} (hs : s.tokens = t :: us) :
    ∃ s', s'.tokens = us ∧
      (t.kind = .symbol '\x7b' → ∀ depth, skipDeep depth s = skipDeep (depth + 1) s') ∧
      (t.kind = .symbol '\x7d' → skipDeep 0 s = .ok (t, s') ∧ ∀ depth, skipDeep (depth + 1) s = skipDeep depth s') ∧
      (t.kind ≠ .symbol '\x7b' → t.kind ≠ .symbol '\x7d' → ∀ depth, skipDeep depth s = skipDeep depth s') := by
  obtain ⟨s', hnext, hs'⟩ := next_ok (.symbol '\x7d') hs
  have hstep : ∀ depth, skipDeep depth s = _ := fun depth => by
    rw [skipDeep, iterate_eq, braceStep, bind_assoc, bind_ok hnext, pure_bind]
  refine ⟨s', hs', fun hk depth => ?_, fun hk => ⟨?_, fun depth => ?_⟩, fun hopen hclose depth => ?_⟩
  · rw [hstep, if_pos hk]; rfl
  · rw [hstep, if_neg (by rw [hk]; decide), if_pos hk]; rfl
  · rw [hstep, if_neg (by rw [hk]; decide), if_pos hk]; rfl
  · rw [hstep, if_neg hopen, if_neg hclose]; rfl

/-- Balanced tokens are passed over at every depth. -/
theorem skipDeep_balanced {s : Stream} {ks : List Kind} (h : Balanced ks) (hs : s.tokens = ts ++ us)
    (hts : ts.map Token.kind = ks) : ∃ s', s'.tokens = us ∧ ∀ depth, skipDeep depth s = skipDeep depth s' := by
  induction h generalizing s ts us with
  | nil =>
      cases List.map_eq_nil_iff.mp hts
      exact ⟨s, hs, fun _ => rfl⟩
  | single hopen hclose =>
      obtain ⟨t, rfl, rfl⟩ := List.map_eq_singleton_iff.mp hts
      obtain ⟨s', hs', -, -, hother⟩ := skipDeep_cons hs
      exact ⟨s', hs', hother hopen hclose⟩
  | append _ _ ih ih' =>
      obtain ⟨vs, ws, rfl, hvs, hws⟩ := List.map_eq_append_iff.mp hts
      rw [List.append_assoc] at hs
      obtain ⟨s₁, hs₁, hfront⟩ := ih hs hvs
      obtain ⟨s', hs', hback⟩ := ih' hs₁ hws
      exact ⟨s', hs', fun depth => (hfront depth).trans (hback depth)⟩
  | braces _ ih =>
      obtain ⟨opening, vs, rfl, hopening, hvs⟩ := List.map_eq_cons_iff.mp hts
      obtain ⟨inner, closings, rfl, hinner, hclosings⟩ := List.map_eq_append_iff.mp hvs
      obtain ⟨closing, rfl, hclosing⟩ := List.map_eq_singleton_iff.mp hclosings
      rw [List.cons_append, List.append_assoc] at hs
      obtain ⟨s₁, hs₁, hopen, -, -⟩ := skipDeep_cons hs
      obtain ⟨s₂, hs₂, hbody⟩ := ih hs₁ hinner
      obtain ⟨s', hs', -, hclose, -⟩ := skipDeep_cons hs₂
      refine ⟨s', hs', fun depth => ?_⟩
      rw [hopen hopening, hbody, (hclose hclosing).2]

/-- Braces are passed over up to the one that closes the block. -/
theorem skipBraces_ok {s : Stream} {t : Token} (hs : s.tokens = ts ++ t :: us) (hts : Balanced (ts.map Token.kind))
    (ht : t.kind = .symbol '\x7d') : ∃ s', skipBraces s = .ok (t, s') ∧ s'.tokens = us := by
  obtain ⟨s₁, hs₁, hbody⟩ := skipDeep_balanced hts hs rfl
  obtain ⟨s', hs', -, hclose, -⟩ := skipDeep_cons hs₁
  exact ⟨s', (hbody 0).trans (hclose ht).1, hs'⟩

/-- Nothing but the end of the input ends a block that is not closed. -/
theorem skipBraces_fails {s : Stream} {e : SchemaError} (h : skipBraces s = .error e) :
    e = .endOfInput (.symbol '\x7d') := by
  have hstep : ∀ depth s, braceStep depth s = .error e → e = .endOfInput (.symbol '\x7d') := by
    intro depth s h
    cases hs : s.tokens with
    | nil =>
        have hitems : s.items = [] := List.map_eq_nil_iff.mp hs
        have hnext : next (.symbol '\x7d') s = .error (.endOfInput (.symbol '\x7d')) := by
          refine bind_error ?_
          rw [require, hitems]
        rw [braceStep, bind_error hnext] at h
        exact (Except.error.inj h).symm
    | cons t us =>
        obtain ⟨s', hnext, -⟩ := next_ok (.symbol '\x7d') hs
        rw [braceStep, bind_ok hnext] at h
        cases h
  unfold skipBraces at h
  generalize 0 = depth at h
  fun_induction iterate braceStep (.of_takes takes_braceStep) depth s with
  | case1 depth s e' he => cases h; exact hstep depth s he
  | case2 => cases h
  | case3 _ _ _ _ _ _ ih => exact ih h

/-- Braces that are not closed are passed over to the end of the input. -/
theorem skipBraces_error {s : Stream}
    (hs : ∀ ks ls, s.tokens.map Token.kind = ks ++ .symbol '\x7d' :: ls → ¬ Balanced ks) :
    skipBraces s = .error (.endOfInput (.symbol '\x7d')) := by
  cases h : skipBraces s with
  | ok x =>
      obtain ⟨us, htokens, inner, rfl, hinner, hclosing⟩ := parses_skipBraces trivial h
      refine absurd ?_ (hs (inner.map Token.kind) (x.2.tokens.map Token.kind) ?_)
      · cases leaves_of_nests hinner with
        | balanced h => exact h
      · rw [htokens, List.append_assoc, List.map_append, List.singleton_append, List.map_cons, hclosing]
  | error e => rw [skipBraces_fails h]

/-- What a token is to a reader that looks for a symbol. -/
theorem skipPast_cons {s : Stream} {c : Char} {t : Token} (hs : s.tokens = t :: us) :
    ∃ s', s'.tokens = us ∧ (t.kind = .symbol c → skipPast c s = .ok (t, s')) ∧
      (t.kind ≠ .symbol c → skipPast c s = skipPast c s') := by
  obtain ⟨s', hnext, hs'⟩ := next_ok (.symbol c) hs
  have hloop : skipPast c = skipStep c () >>= Sum.elim (fun _ => skipPast c) pure := iterate_eq ..
  have hstep : skipPast c s =
      Sum.elim (fun _ => skipPast c) pure (if t.kind = .symbol c then .inr t else .inl ()) s' := by
    refine (congrFun hloop s).trans ?_
    rw [skipStep, bind_assoc, bind_ok hnext, pure_bind]
  refine ⟨s', hs', fun hk => ?_, fun hk => ?_⟩
  · rw [hstep, if_pos hk]; rfl
  · rw [hstep, if_neg hk]; rfl

/-- Everything up to a symbol is passed over. -/
theorem skipPast_ok {s : Stream} {c : Char} {t : Token} (hs : s.tokens = ts ++ t :: us)
    (hts : .symbol c ∉ ts.map Token.kind) (ht : t.kind = .symbol c) :
    ∃ s', skipPast c s = .ok (t, s') ∧ s'.tokens = us := by
  induction ts generalizing s with
  | nil =>
      obtain ⟨s', hs', hlast, -⟩ := skipPast_cons hs
      exact ⟨s', hlast ht, hs'⟩
  | cons u ts ih =>
      rw [List.map_cons, List.mem_cons, not_or] at hts
      obtain ⟨s₁, hs₁, -, hmore⟩ := skipPast_cons hs
      obtain ⟨s', hskip, hs'⟩ := ih hs₁ hts.2
      exact ⟨s', (hmore (Ne.symm hts.1)).trans hskip, hs'⟩

-- ── Constructs ───────────────────────────────────────────────────────────────────

namespace Schema

/-- A word that starts a block to be passed over: between statements, or in an open message. -/
def StartsBlock (between : Bool) (word : String) : Prop := word = "extend" ∨ (between = true ∧ word = "service")

/-- The tokens of a construct that is passed over, between statements or in an open message: a word, a header and a
    block in braces, or in a message a word and everything up to a semicolon. -/
inductive Skipped (between : Bool) : List Kind → Prop where
  | block {word : String} {header body : List Kind} (starts : StartsBlock between word)
      (header_ends : .symbol '\x7b' ∉ header) (balanced : Balanced body) :
      Skipped between (.ident word :: header ++ .symbol '\x7b' :: body ++ [.symbol '\x7d'])
  | statement {word : String} {body : List Kind} (inside : between = false)
      (starts : word = "reserved" ∨ word = "extensions") (ends : .symbol ';' ∉ body) :
      Skipped between (.ident word :: body ++ [.symbol ';'])

/-- The tokens of a block up to the end of the input that is not closed there: no brace closes it. -/
inductive Unclosed (between : Bool) : List Kind → Prop where
  | block {word : String} {header body : List Kind} (starts : StartsBlock between word)
      (header_ends : .symbol '\x7b' ∉ header)
      (unbalanced : ∀ ks ls, body = ks ++ .symbol '\x7d' :: ls → ¬ Balanced ks) :
      Unclosed between (.ident word :: header ++ .symbol '\x7b' :: body)

namespace Progress

variable {a : Progress} {s : Stream} {t : Token} {word : String}

/-- A statement is read that the next word starts, unless that opens a message. -/
theorem advance_statement (g : Schema) (hs : s.kindAt? 0 = some (.ident word)) (hword : word ≠ "message") :
    advance source ⟨g, []⟩ s =
      (readItemNamed source word >>= fun x => pure ⟨g.push x, []⟩) { s with held := [] } := by
  have hpeek : peek? { s with held := [] } = .ok (some (.ident word), { s with held := [] }) := by
    rw [← hs]; rfl
  have hne : (some (.ident word) : Option Kind) ≠ some (.ident "message") := by simpa using hword
  show advanceStatement source g { s with held := [] } = _
  rw [advanceStatement, bind_ok hpeek, if_neg hne, readItem, bind_assoc, bind_ok hpeek]

/-- In an open message, the element is read that the next word starts. -/
theorem advance_element (g : Schema) (m : Message) (ms : List Message) (hs : s.kindAt? 0 = some (.ident word)) :
    advance source ⟨g, m :: ms⟩ s =
      (Message.readNamed source word >>= fun x => pure (element g m ms x)) { s with held := [] } := by
  have hpeek : peek? { s with held := [] } = .ok (some (.ident word), { s with held := [] }) := by
    rw [← hs]; rfl
  have hdrop : dropHeld s = .ok ((), { s with held := [] }) := rfl
  rw [advance]
  dsimp only
  rw [Message.readElement, bind_assoc, bind_ok hdrop, bind_assoc, bind_ok hpeek]

/-- A block is read by passing over it. -/
theorem advance_block (source : List Char) (hs : s.tokens = t :: us) (ht : t.kind = .ident word)
    (hword : StartsBlock a.opened.isEmpty word) :
    ∃ s', s'.tokens = us ∧ advance source a s = (skipBlock >>= fun _ => pure a) s' := by
  obtain ⟨g, opened⟩ := a
  have hkind : s.kindAt? 0 = some (.ident word) := by rw [kindAt?_zero hs, ht]
  cases opened with
  | nil =>
      have hne : word ≠ "message" := by rcases hword with rfl | ⟨-, rfl⟩ <;> decide
      have hblock : readItemNamed source word =
          next .topLevelStatement >>= fun _ => skipBlock >>= fun _ => pure .skip := by
        rcases hword with rfl | ⟨-, rfl⟩ <;> simp [readItemNamed]
      obtain ⟨s', hnext, hs'⟩ := next_ok (t := { s with held := [] }) .topLevelStatement hs
      refine ⟨s', hs', ?_⟩
      rw [advance_statement g hkind hne, hblock, bind_assoc, bind_ok hnext, bind_assoc]
      rfl
  | cons m ms =>
      obtain rfl : word = "extend" := hword.resolve_right fun h => absurd h.1 (by simp)
      obtain ⟨s', hnext, hs'⟩ := next_ok (t := { s with held := [] }) .messageElement hs
      refine ⟨s', hs', ?_⟩
      have hblock : Message.readNamed source "extend" =
          next .messageElement >>= fun _ => skipBlock >>= fun _ => pure .skip := by
        simp [Message.readNamed]
      rw [advance_element g m ms hkind, hblock, bind_assoc, bind_ok hnext, bind_assoc]
      rfl

/-- A statement up to a semicolon is read by passing over it. -/
theorem advance_skipPast (source : List Char) (hs : s.tokens = t :: us) (ht : t.kind = .ident word)
    (hword : word = "reserved" ∨ word = "extensions") (hopened : a.opened.isEmpty = false) :
    ∃ s', s'.tokens = us ∧ advance source a s = (skipPast ';' >>= fun _ => pure a) s' := by
  obtain ⟨g, opened⟩ := a
  cases opened with
  | nil => cases hopened
  | cons m ms =>
      have hkind : s.kindAt? 0 = some (.ident word) := by rw [kindAt?_zero hs, ht]
      have hstatement : Message.readNamed source word =
          next .messageElement >>= fun _ => skipPast ';' >>= fun _ => pure .skip := by
        rcases hword with rfl | rfl <;> simp [Message.readNamed]
      obtain ⟨s', hnext, hs'⟩ := next_ok (t := { s with held := [] }) .messageElement hs
      refine ⟨s', hs', ?_⟩
      rw [advance_element g m ms hkind, hstatement, bind_assoc, bind_ok hnext, bind_assoc]
      rfl

/-- **A construct that is passed over is a step that adds nothing.** -/
theorem advance_skipped (source : List Char) (h : Skipped a.opened.isEmpty (ts.map Token.kind))
    (hs : s.tokens = ts ++ us) :
    ∃ s', advance source a s = .ok (a, s') ∧ s'.tokens = us := by
  generalize hkinds : ts.map Token.kind = ks at h
  cases h with
  | @block word header body starts header_ends balanced =>
      obtain ⟨front, closings, rfl, hfront, hclosings⟩ := List.map_eq_append_iff.mp hkinds
      obtain ⟨closing, rfl, hclosing⟩ := List.map_eq_singleton_iff.mp hclosings
      obtain ⟨heads, block, rfl, hheads, hblock⟩ := List.map_eq_append_iff.mp hfront
      obtain ⟨keyword, heads, rfl, hkeyword, hheader⟩ := List.map_eq_cons_iff.mp hheads
      obtain ⟨opening, inner, rfl, hopening, hinner⟩ := List.map_eq_cons_iff.mp hblock
      simp only [List.append_assoc, List.cons_append, List.nil_append] at hs
      obtain ⟨s₁, hs₁, hadvance⟩ := advance_block source hs hkeyword starts
      obtain ⟨s₂, hheader, hs₂⟩ := skipPast_ok hs₁ (by rwa [hheader]) hopening
      obtain ⟨s', hbraces, hs'⟩ := skipBraces_ok hs₂ (by rwa [hinner]) hclosing
      refine ⟨s', ?_, hs'⟩
      rw [hadvance, skipBlock, bind_assoc, bind_ok hheader, bind_assoc, bind_ok hbraces]
      rfl
  | @statement word body inside starts ends =>
      obtain ⟨front, closings, rfl, hfront, hclosings⟩ := List.map_eq_append_iff.mp hkinds
      obtain ⟨closing, rfl, hclosing⟩ := List.map_eq_singleton_iff.mp hclosings
      obtain ⟨keyword, inner, rfl, hkeyword, hinner⟩ := List.map_eq_cons_iff.mp hfront
      simp only [List.append_assoc, List.cons_append, List.nil_append] at hs
      obtain ⟨s₁, hs₁, hadvance⟩ := advance_skipPast source hs hkeyword starts inside
      obtain ⟨s', hskip, hs'⟩ := skipPast_ok hs₁ (by rwa [hinner]) hclosing
      refine ⟨s', ?_, hs'⟩
      rw [hadvance, bind_ok hskip]
      rfl

/-- **A block that is not closed is an error at the end of the input.** -/
theorem finish_unclosed (h : Unclosed a.opened.isEmpty (s.tokens.map Token.kind)) :
    finish source a s = .error (.endOfInput (.symbol '\x7d')) := by
  generalize hkinds : s.tokens.map Token.kind = ks at h
  cases h with
  | @block word header body starts header_ends unbalanced =>
      obtain ⟨heads, block, hs, hheads, hblock⟩ := List.map_eq_append_iff.mp hkinds
      obtain ⟨keyword, heads, rfl, hkeyword, hheader⟩ := List.map_eq_cons_iff.mp hheads
      obtain ⟨opening, inner, rfl, hopening, hinner⟩ := List.map_eq_cons_iff.mp hblock
      obtain ⟨s₁, hs₁, hadvance⟩ := advance_block source hs hkeyword starts
      obtain ⟨s₂, hheader, hs₂⟩ := skipPast_ok hs₁ (by rwa [hheader]) hopening
      have hbraces : skipBraces s₂ = .error (.endOfInput (.symbol '\x7d')) :=
        skipBraces_error (by rwa [hs₂, hinner])
      have herror : advance source a s = .error (.endOfInput (.symbol '\x7d')) := by
        rw [hadvance, skipBlock, bind_assoc, bind_ok hheader, bind_assoc, bind_error hbraces]
      rw [finish_eq_advance a (.inr (by simp [hs])), bind_error herror]

end Progress

end Schema

end FlagSchema
