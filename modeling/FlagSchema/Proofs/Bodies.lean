import FlagSchema.Proofs.Enums
import FlagSchema.Proofs.Recast

/-!
# What the body of an enum holds

The comments of the body of an enum are collected by its options and values or are left over at its end,
each of them once, and what its options and values quote of the source can be read anywhere else.

* **`EnumDef.Body.collected`**: the comments that options and values have collected.
* **`Setting.Spelled`**, **`EnumValue.Spelled`**: what an option and a value quote of the source.
* **`EnumDef.readBody_inv`**: the words of a body, and the balance of its comments.
-/

namespace FlagSchema

open Token Reader

variable {source : List Char} {p : Place}

-- ── Quotations ───────────────────────────────────────────────────────────────────

/-- What an option quotes: the statement from its keyword to its semicolon. -/
structure Setting.Spelled (source : List Char) (x : Setting) (w : Word) (us : List Word) (v : Word) :
    Prop where
  slice     : Text.slice source x.span = w.spelling ++ textOf (us ++ [v])
  keyword   : w.kind = .ident "option"
  semicolon : v.kind = .symbol ';'
  reads     : ∃ tail, Reads tail (w :: (us ++ [v]))
  noValue   : ∀ p, (significant (placed p (us ++ [v])))[0]?.map Token.kind ≠ some (.symbol '=')
  readsAs   : x.ReadsAs (us ++ [v])

/-- What a value quotes: its options between their brackets. -/
structure EnumValue.Bracketed (source : List Char) (y : EnumValue) (span : Span) (us : List Word)
    (v : Word) : Prop where
  place   : y.settingsSpan = some span
  slice   : Text.slice source span = '[' :: textOf (us ++ [v])
  closing : v.kind = .symbol ']'
  reads   : ∃ tail, Reads tail (us ++ [v])
  inside  : Setting.ReadsInside y.settings (us ++ [v])

/-- What a value is written with: its name, and the quotation of its options if it has any. -/
structure EnumValue.Spelled (source : List Char) (y : EnumValue) : Prop where
  name     : ∃ w tail, Word.Leads w tail ∧ w.kind = .ident y.name
  settings : (y.settings = [] ∧ y.settingsSpan = none) ∨
    ∃ span us v, y.Bracketed source span us v

-- ── Collected comments ───────────────────────────────────────────────────────────

/-- The comment that an option has collected. -/
def Setting.behind (x : Setting) : Multiset String := x.trailing.toList

/-- The comments that a value has collected. -/
def EnumValue.around (y : EnumValue) : Multiset String := y.leading + y.trailing.toList

-- ── Values ───────────────────────────────────────────────────────────────────────

namespace EnumValue

/-- The words of the number of a value, and what it quotes. -/
theorem readNumbered_inv {s s' : Stream} {ws : List Word}
    {y : Bool × Nat × (List Setting × Option Span) × Token} (hs : s.Holds source p ws)
    (h : readNumbered source s = .ok (y, s')) :
    ∃ vs ws', ws = vs ++ ws' ∧ s'.Holds source (p.after (textOf vs)) ws' ∧
      s'.held = s.held ++ comments vs ∧
      ∀ x leading trailing, ((ofParts x leading y trailing).settings = [] ∧
          (ofParts x leading y trailing).settingsSpan = none) ∨
        ∃ span us v, (ofParts x leading y trailing).Bracketed source span us v := by
  obtain ⟨vs, ws', rfl, hs', hheld⟩ := passes_readNumbered hs h
  refine ⟨vs, ws', rfl, hs', hheld rfl, fun x leading trailing => ?_⟩
  obtain ⟨t₁, s₁, h1, hrest⟩ := exists_of_bind h
  obtain ⟨negative, s₂, h2, hrest⟩ := exists_of_bind hrest
  obtain ⟨number, s₃, h3, hrest⟩ := exists_of_bind hrest
  obtain ⟨⟨xs, o⟩, s₄, h4, hrest⟩ := exists_of_bind hrest
  obtain ⟨semicolon, s₅, h5, hrest⟩ := exists_of_bind hrest
  cases hrest
  obtain ⟨vs₁, ws₁, -, hs₁, -⟩ := (Passes.symbol '=' : Passes source false _) hs h1
  obtain ⟨vs₂, ws₂, rfl, hs₂, -⟩ := (Passes.acceptSymbol '-' : Passes source false _) hs₁ h2
  obtain ⟨vs₃, ws₃, rfl, hs₃, -⟩ := (passes_readInteger _ : Passes source false _) hs₂ h3
  rcases Setting.readBracketed_inv hs₃ h4 with
    ⟨hnone, -⟩ | ⟨cs, w, us, v, ws₄, rfl, hcs, hw, hv, -, -, hspan, hinside⟩
  · cases hnone
    exact .inl ⟨rfl, rfl⟩
  · have hw' : w.kind.isComment = false := by rw [hw]; rfl
    obtain ⟨before, after, -, -, hreads⟩ := hs₃.lies.left
    obtain ⟨-, -, hopen, hreads⟩ := reads_append.mp hreads
    refine .inr ⟨_, us, v, hspan, ?_, hv, ⟨after, hreads⟩, hinside⟩
    rw [spanOf_comments hcs hw', spanOf, startOf_cons hw', hs₃.lies.left.right.slice,
      (hopen.symbol_form hw).1]
    rfl

/-- The words of a value and what it quotes. Its comments are those that were held and its own. -/
theorem read_inv {s s' : Stream} {ws : List Word} {y : EnumValue} (hs : s.Holds source p ws)
    (h : read source s = .ok (y, s')) :
    ∃ vs ws', ws = vs ++ ws' ∧ s'.Holds source (p.after (textOf vs)) ws' ∧ y.Spelled source ∧
      y.leading ++ s'.held ++ y.trailing.toList = s.held ++ comments vs := by
  rw [read_eq] at h
  obtain ⟨⟨name, token⟩, s₁, h1, hrest⟩ := exists_of_bind h
  obtain ⟨leading, s₂, h2, hrest⟩ := exists_of_bind hrest
  obtain ⟨x, s₃, h3, hrest⟩ := exists_of_bind hrest
  obtain ⟨trailing, s₄, h4, hrest⟩ := exists_of_bind hrest
  cases hrest
  obtain ⟨cs, w, ws₁, rfl, hcs, hw, -, hheld₁, hs₁⟩ := name_inv hs h1
  obtain ⟨rfl, rfl⟩ : s₁.held = leading ∧ ({ s₁ with held := [] } : Stream) = s₂ := by
    cases h2
    exact ⟨rfl, rfl⟩
  obtain ⟨vs, ws₂, rfl, hs₃, hheld₃, hquote⟩ := readNumbered_inv (hs₁.held []) h3
  obtain ⟨ts, ws₃, rfl, hs', hheld', htexts, -⟩ := trailing_inv hs₃ h4
  have hw' : w.kind.isComment = false := by rw [hw]; rfl
  refine ⟨cs ++ [w] ++ vs ++ ts, ws₃, ?_, ?_, ⟨?_, hquote ..⟩, ?_⟩
  · simp only [List.append_assoc, List.cons_append, List.nil_append]
  · simpa only [textOf_append, Place.after_append] using hs'
  · obtain ⟨before, after, -, -, hreads⟩ := hs.lies
    exact ⟨w, _, (reads_append.mp hreads).2.2.1, hw⟩
  · show s₁.held ++ s'.held ++ trailing.toList = _
    rw [hheld', hheld₃, hheld₁, ← htexts]
    simp only [comments_append, comments_cons hw', comments_nil, List.append_assoc, List.nil_append]

end EnumValue

-- ── Steps of the body ────────────────────────────────────────────────────────────

namespace EnumDef

/-- The comments that options and values have collected. -/
def Body.collected (b : Body) : Multiset String :=
  (b.settings.map Setting.behind).sum + (b.values.map EnumValue.around).sum

theorem Body.collected_pushSetting (b : Body) (x : Setting) :
    Body.collected { b with settings := b.settings ++ [x] } = b.collected + x.behind := by
  simp only [collected, List.map_append, List.map_singleton, List.sum_append, List.sum_singleton]
  rw [add_right_comm]

theorem Body.collected_pushValue (b : Body) (y : EnumValue) :
    Body.collected { b with values := b.values ++ [y] } = b.collected + y.around := by
  simp only [collected, List.map_append, List.map_singleton, List.sum_append, List.sum_singleton]
  rw [add_assoc]

/-- What options and values quote of the source can be read anywhere else. -/
structure Body.Sound (source : List Char) (b : Body) : Prop where
  settings : ∀ x ∈ b.settings, ∃ w us v, x.Spelled source w us v
  values   : ∀ y ∈ b.values, y.Spelled source

theorem Body.Sound.pushSetting {b : Body} (h : b.Sound source) {x : Setting}
    (hx : ∃ w us v, x.Spelled source w us v) :
    Body.Sound source { b with settings := b.settings ++ [x] } := by
  refine ⟨fun y hy => ?_, h.values⟩
  rcases List.mem_append.mp hy with hy | hy
  · exact h.settings y hy
  · exact List.mem_singleton.mp hy ▸ hx

theorem Body.Sound.pushValue {b : Body} (h : b.Sound source) {y : EnumValue} (hy : y.Spelled source) :
    Body.Sound source { b with values := b.values ++ [y] } := by
  refine ⟨h.settings, fun x hx => ?_⟩
  rcases List.mem_append.mp hx with hx | hx
  · exact h.values x hx
  · exact List.mem_singleton.mp hx ▸ hy

/-- The balance of the comments: what is held and what has been collected are the comments passed. -/
def Balanced (s s' : Stream) (b b' : Body) (vs : List Word) : Prop :=
  (s'.held : Multiset String) + b'.collected = s.held + b.collected + comments vs

/-- An option of the body: the words it takes, what it quotes and its comments. -/
theorem readSetting_inv {s s' : Stream} {ws : List Word} {b : Body} {x : Setting} (hs : s.Holds source p ws)
    (hword : s.kindAt? 0 = some (.ident "option")) (hvalue : s.symbolAt 1 '=' = false)
    (h : Setting.readStatement source s = .ok (x, s')) :
    ∃ vs ws', ws = vs ++ ws' ∧ s'.Holds source (p.after (textOf vs)) ws' ∧
      (∃ w us v, x.Spelled source w us v) ∧
      Balanced s s' b { b with settings := b.settings ++ [x] } vs := by
  obtain ⟨cs, w, us, v, ts, ws', rfl, hcs, hw, hv, hs', hheld, -, htexts, hspan, hreadsAs⟩ :=
    Setting.readStatement_inv hs h
  have hlies := hs.lies.left.left.right
  have hcut : cs ++ w :: (us ++ [v]) ++ ts ++ ws' = cs ++ w :: (us ++ [v] ++ (ts ++ ws')) := by
    simp only [List.append_assoc, List.cons_append]
  rw [hcut] at hs
  refine ⟨_, ws', rfl, hs', ⟨w, us, v, ?_, ?_, hv, ?_, fun q => ?_, hreadsAs⟩, ?_⟩
  · rw [hspan, spanOf_comments hcs hw, spanOf, startOf_cons hw, hlies.slice]
  · rw [hs.kindAt?_zero hcs hw] at hword
    exact Option.some.inj hword
  · obtain ⟨before, after, -, -, hreads⟩ := hlies
    exact ⟨after, hreads⟩
  · have hv' : v.kind.isComment = false := by rw [hv]; rfl
    have hne : significant (placed (p.after (textOf (cs ++ [w]))) (us ++ [v])) ≠ [] := by
      rw [placed_append, significant_append, placed_cons, significant_cons hv']
      exact List.append_ne_nil_of_right_ne_nil _ (List.cons_ne_nil _ _)
    rw [Stream.symbolAt, Stream.kindAt?_eq, hs.tokens, significant_placed_cons hcs hw, placed_append,
      significant_append, List.getElem?_cons_succ,
      List.getElem?_append_left (List.length_pos_iff.mpr hne), ← List.getElem?_map] at hvalue
    rw [← List.getElem?_map, kinds_significant_placed q (p.after (textOf (cs ++ [w])))]
    exact beq_eq_false_iff_ne.mp hvalue
  · rw [Balanced, Body.collected_pushSetting, Setting.behind, hheld, ← htexts]
    simp only [comments_append, ← Multiset.coe_add]
    abel

/-- A statement that adds nothing. -/
theorem skip_inv {α : Type} {r : Reader α} (hr : Passes source true r) {s s' : Stream} {ws : List Word}
    {x : α} (b : Body) (hs : s.Holds source p ws) (h : r s = .ok (x, s')) :
    ∃ vs ws', ws = vs ++ ws' ∧ s'.Holds source (p.after (textOf vs)) ws' ∧ Balanced s s' b b vs := by
  obtain ⟨vs, ws', rfl, hs', hheld⟩ := hr hs h
  refine ⟨vs, ws', rfl, hs', ?_⟩
  rw [Balanced, hheld rfl, ← Multiset.coe_add]
  abel

/-- **A step of the body that goes on**: the words it takes, and the balance of their comments. -/
theorem bodyStep_inl {s s' : Stream} {ws : List Word} {b b' : Body} (hs : s.Holds source p ws)
    (h : bodyStep source b s = .ok (.inl b', s')) (hb : b.Sound source) :
    ∃ vs ws', ws = vs ++ ws' ∧ s'.Holds source (p.after (textOf vs)) ws' ∧ b'.Sound source ∧
      Balanced s s' b b' vs := by
  obtain ⟨kind, s₁, h1, hstep⟩ := exists_of_bind h
  obtain ⟨rfl, hkind⟩ := eq_of_peek? h1
  split at hstep
  · exact absurd hstep (refuse_ne_ok _ _ _)
  · split at hstep
    · obtain ⟨t, s₂, h2, h3⟩ := exists_of_bind hstep
      cases h3
    · split at hstep
      · obtain ⟨t, s₂, h2, h3⟩ := exists_of_bind hstep
        cases h3
        obtain ⟨vs, ws', hws, hs', hbalance⟩ := skip_inv (.next _) b hs h2
        exact ⟨vs, ws', hws, hs', hb, hbalance⟩
      · exact absurd hstep (refuse_ne_ok _ _ _)
  · next word =>
      obtain ⟨isValue, s₂, h2, hstep⟩ := exists_of_bind hstep
      obtain ⟨hisValue, rfl⟩ : s₁.symbolAt 1 '=' = isValue ∧ s₁ = s₂ := by cases h2; exact ⟨rfl, rfl⟩
      split at hstep
      · next hoption =>
          obtain ⟨x, s₃, h3, h4⟩ := exists_of_bind hstep
          cases h4
          obtain ⟨vs, ws', hws, hs', hx, hbalance⟩ :=
            readSetting_inv hs (hoption.1 ▸ hkind) (hisValue.trans hoption.2) h3
          exact ⟨vs, ws', hws, hs', hb.pushSetting hx, hbalance⟩
      · split at hstep
        · obtain ⟨t, s₃, h3, h4⟩ := exists_of_bind hstep
          obtain ⟨u, s₄, h4, h5⟩ := exists_of_bind h4
          cases h5
          have hpasses : Passes source true (next .enumValue >>= fun _ => skipPast ';') :=
            .bind (.next _) fun _ => passes_skipPast _
          obtain ⟨vs, ws', hws, hs', hbalance⟩ := skip_inv hpasses b hs ((bind_ok h3).trans h4)
          exact ⟨vs, ws', hws, hs', hb, hbalance⟩
        · obtain ⟨y, s₃, h3, h4⟩ := exists_of_bind hstep
          cases h4
          obtain ⟨vs, ws', hws, hs', hy, hcomments⟩ := EnumValue.read_inv hs h3
          refine ⟨vs, ws', hws, hs', hb.pushValue hy, ?_⟩
          have hsum := congrArg (fun cs : List String => (cs : Multiset String)) hcomments
          simp only [← Multiset.coe_add] at hsum
          rw [Balanced, Body.collected_pushValue, EnumValue.around]
          calc (s'.held : Multiset String) + (b.collected + (y.leading + y.trailing.toList))
              = (y.leading + s'.held + y.trailing.toList) + b.collected := by abel
            _ = s₁.held + b.collected + comments vs := by rw [hsum]; abel
  · exact absurd hstep (refuse_ne_ok _ _ _)

/-- A step of the body that ends takes the closing brace. -/
theorem bodyStep_inr {s s' : Stream} {ws : List Word} {b b' : Body} {closing : Token}
    (hs : s.Holds source p ws) (h : bodyStep source b s = .ok (.inr (b', closing), s')) :
    b' = b ∧ ∃ cs w ws', ws = cs ++ w :: ws' ∧ w.kind = .symbol '\x7d' ∧
      closing = w.token (p.after (textOf cs)) ∧
      s'.Holds source (p.after (textOf (cs ++ [w]))) ws' ∧ s'.held = s.held ++ comments cs := by
  obtain ⟨kind, s₁, h1, hstep⟩ := exists_of_bind h
  obtain ⟨rfl, hkind⟩ := eq_of_peek? h1
  split at hstep
  · exact absurd hstep (refuse_ne_ok _ _ _)
  · next c =>
      split at hstep
      · next hc =>
          obtain ⟨t, s₂, h2, h3⟩ := exists_of_bind hstep
          cases h3
          obtain ⟨⟨_, _⟩, s₃, h2, h4⟩ := exists_of_bind h2
          cases h4
          obtain ⟨cs, w, ws', rfl, hcs, hw, -, htoken, hheld, hs'⟩ := require_inv hs h2
          rw [hs.kindAt?_zero hcs hw] at hkind
          exact ⟨rfl, cs, w, ws', rfl, hc ▸ Option.some.inj hkind, htoken, hs', hheld⟩
      · split at hstep
        · obtain ⟨t, s₂, h2, h3⟩ := exists_of_bind hstep
          cases h3
        · exact absurd hstep (refuse_ne_ok _ _ _)
  · obtain ⟨isValue, s₂, h2, hstep⟩ := exists_of_bind hstep
    split at hstep
    · obtain ⟨x, s₃, h3, h4⟩ := exists_of_bind hstep
      cases h4
    · split at hstep
      · obtain ⟨t, s₃, h3, h4⟩ := exists_of_bind hstep
        obtain ⟨u, s₄, h4, h5⟩ := exists_of_bind h4
        cases h5
      · obtain ⟨y, s₃, h3, h4⟩ := exists_of_bind hstep
        cases h4
  · exact absurd hstep (refuse_ne_ok _ _ _)

/-- **The run of the body**: what holds of every step holds of all of them together. -/
theorem iterate_bodyStep_inv {s s' : Stream} {ws : List Word} {b b' : Body} {closing : Token}
    (hs : s.Holds source p ws)
    (h : iterate (bodyStep source) (proceeds_bodyStep source) b s = .ok ((b', closing), s'))
    (hb : b.Sound source) :
    ∃ vs w ws', ws = vs ++ w :: ws' ∧ w.kind = .symbol '\x7d' ∧
      closing = w.token (p.after (textOf vs)) ∧
      s'.Holds source (p.after (textOf (vs ++ [w]))) ws' ∧ b'.Sound source ∧ Balanced s s' b b' vs := by
  fun_induction Reader.iterate (bodyStep source) (proceeds_bodyStep source) b s
    generalizing p ws with
  | case1 => cases h
  | case2 b s x s₁ h1 =>
      cases h
      obtain ⟨rfl, cs, w, ws', rfl, hw, rfl, hs', hheld⟩ := bodyStep_inr hs h1
      refine ⟨cs, w, ws', rfl, hw, rfl, hs', hb, ?_⟩
      rw [Balanced, hheld, ← Multiset.coe_add]
      abel
  | case3 b s b₁ s₁ h1 hlt ih =>
      obtain ⟨us, ws₁, rfl, hs₁, hb₁, hbalance₁⟩ := bodyStep_inl hs h1 hb
      obtain ⟨vs, w, ws', rfl, hw, rfl, hs', hb', hbalance⟩ := ih hs₁ h hb₁
      refine ⟨us ++ vs, w, ws', (List.append_assoc ..).symm, hw, ?_, ?_, hb', ?_⟩
      · rw [textOf_append, Place.after_append]
      · simpa only [textOf_append, Place.after_append] using hs'
      · rw [Balanced] at hbalance hbalance₁ ⊢
        rw [hbalance, hbalance₁, comments_append, ← Multiset.coe_add]
        abel

/-- **The body of an enum**: its words up to the closing brace, and where its comments are collected. -/
theorem readBody_inv {s s' : Stream} {ws : List Word} {b : Body} {closing : Token}
    {dangling : List String} (hs : s.Holds source p ws)
    (h : readBody source s = .ok ((b, closing, dangling), s')) :
    ∃ vs w ws', ws = vs ++ w :: ws' ∧ w.kind = .symbol '\x7d' ∧
      closing = w.token (p.after (textOf vs)) ∧
      s'.Holds source (p.after (textOf (vs ++ [w]))) ws' ∧ b.Sound source ∧
      b.collected + dangling = comments vs := by
  obtain ⟨_, s₁, h1, hrest⟩ := exists_of_bind h
  obtain ⟨⟨b', closing'⟩, s₂, h2, hrest⟩ := exists_of_bind hrest
  obtain ⟨dangling', s₃, h3, hrest⟩ := exists_of_bind hrest
  cases hrest
  cases h1
  cases h3
  obtain ⟨vs, w, ws', rfl, hw, rfl, hs', hb, hbalance⟩ :=
    iterate_bodyStep_inv (hs.held []) h2 ⟨nofun, nofun⟩
  refine ⟨vs, w, ws', rfl, hw, rfl, hs'.held [], hb, ?_⟩
  rw [Balanced] at hbalance
  rw [add_comm, hbalance]
  exact zero_add _

end EnumDef

end FlagSchema
