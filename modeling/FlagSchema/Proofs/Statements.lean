import FlagSchema.Proofs.Copies

/-!
# Whole statements

Every statement of a schema ends in itself, with a semicolon or a brace. So the words of a text that is read to
its end state the same schema wherever they stand in another text.

* **`Schema.ends_readItem`**: how a statement ends.
* **`Schema.append`**: a schema with the statements of another behind its own.
* **`Schema.StatedBy`**: words are read as statements that declare what a schema does.
* **`Schema.statedBy_parse`**: the words of a source state its schema.
-/

namespace FlagSchema

open Token Reader

variable {source source' : List Char} {p q : Place}

namespace Schema

-- ── The ends of statements ───────────────────────────────────────────────────────

/-- A kind of token that statements end with. -/
def IsEnd (k : Kind) : Prop := k = .symbol ';' ∨ k = .symbol '\x7d'

theorem IsEnd.ends_semicolon {α : Type} {done : α → Prop} {r : Reader α}
    (h : EndsIn source (· = .symbol ';') done r) : EndsIn source IsEnd done r :=
  h.mono fun _ => .inl

theorem IsEnd.ends_brace {α : Type} {done : α → Prop} {r : Reader α}
    (h : EndsIn source (· = .symbol '\x7d') done r) : EndsIn source IsEnd done r :=
  h.mono fun _ => .inr

end Schema

theorem EnumDef.ends_read {done : EnumDef → Prop} (keyword : Token) :
    EndsIn source (· = .symbol '\x7d') done (read source keyword) := by
  intro s p ws e s' hs h _
  rw [read_eq] at h
  obtain ⟨x, s₁, h1, hrest⟩ := exists_of_bind h
  obtain ⟨⟨b, closing, dangling⟩, s₂, h2, hrest⟩ := exists_of_bind hrest
  cases hrest
  obtain ⟨N, O, ws₁, rfl, -, -, -, hs₁⟩ := readHead_inv hs h1
  obtain ⟨vs, C, ws', rfl, hC, -, hs', -⟩ := readBody_inv hs₁ h2
  refine ⟨N ++ [O] ++ vs ++ [C], ws', ?_, ?_, .concat _ hC⟩
  · simp only [List.append_assoc, List.cons_append, List.nil_append]
  · simpa only [textOf_append, Place.after_append] using hs'

namespace Message

/-- No word closes a message. -/
theorem ends_readNamed (word : String) :
    EndsIn source (· = .symbol '\x7d') (· = .close) (readNamed source word) := by
  unfold readNamed
  split
  · exact .bind_right (.next _) fun _ => .bind_right passes_readHead fun _ => .pure nofun
  split
  · exact .bind_right (.next _) fun keyword => .bind_right (EnumDef.passes_read keyword) fun _ => .pure nofun
  split
  · exact .bind_right Setting.passes_readStatement fun _ => .pure nofun
  split
  · rw [readOneof_eq]
    exact .bind_right (.next _) fun _ => .bind_right copies_oneofHead.passes fun name =>
      .bind_right (.iterate (fun fs => (copies_oneofStep name (rfl : fs.map Field.bare = _)).passes) _)
        fun _ => .pure nofun
  split
  · exact .bind_right (.next _) fun _ => .bind_right (passes_skipPast _) fun _ => .pure nofun
  split
  · exact .bind_right (.next _) fun _ => .bind_right passes_skipBlock fun _ => .pure nofun
  · exact .bind_right (Field.passes_read none) fun _ => .pure nofun

/-- A message is closed by a brace. -/
theorem ends_readElement : EndsIn source (· = .symbol '\x7d') (· = .close) (readElement source) := by
  refine .bind_right .dropHeld fun _ => ?_
  intro s p ws x s' hs h hx
  obtain ⟨kind, s₁, h1, h2⟩ := exists_of_bind h
  obtain ⟨rfl, hkind⟩ := eq_of_peek? h1
  split at h2
  · exact absurd h2 (refuse_ne_ok _ _ _)
  · next c =>
      split at h2
      · next hc =>
          obtain ⟨t, s₂, h3, h4⟩ := exists_of_bind h2
          cases h4
          exact EndsIn.next_of_kind (hc ▸ hkind) hs h3
      split at h2
      · obtain ⟨t, s₂, h3, h4⟩ := exists_of_bind h2
        cases h4
        cases hx
      · exact absurd h2 (refuse_ne_ok _ _ _)
  · exact ends_readNamed _ hs h2 hx
  · exact absurd h2 (refuse_ne_ok _ _ _)

/-- So its body ends, at every depth. -/
theorem ends_readBody {done : Message → Prop} (m : Message) :
    EndsIn source (· = .symbol '\x7d') done (readBody source m) := by
  intro s p ws n s' hs h hdone
  -- What is read behind words that were taken ends as the whole does.
  have hbehind : ∀ {p : Place} {vs ws₁ : List Word} {s' : Stream},
      (∃ us ws', ws₁ = us ++ ws' ∧ s'.Holds source ((p.after (textOf vs)).after (textOf us)) ws' ∧
        EndIn (· = .symbol '\x7d') us) →
      ∃ us ws', vs ++ ws₁ = us ++ ws' ∧ s'.Holds source (p.after (textOf us)) ws' ∧
        EndIn (· = .symbol '\x7d') us := by
    rintro p vs _ s' ⟨us, ws', rfl, hs', hus⟩
    refine ⟨vs ++ us, ws', (List.append_assoc ..).symm, ?_, hus.prepend vs⟩
    rw [textOf_append, Place.after_append]
    exact hs'
  clear hdone
  rw [readBody_eq_ok_iff] at h
  induction h generalizing p ws with
  | close element => exact ends_readElement hs element rfl
  | push element _ _ ih =>
      obtain ⟨vs, ws₁, rfl, hs₁, -⟩ := copies_readElement.passes hs element
      exact hbehind (ih hs₁)
  | nested element _ _ ihInside ihRest =>
      obtain ⟨vs, ws₁, rfl, hs₁, -⟩ := copies_readElement.passes hs element
      obtain ⟨us, ws₂, rfl, hs₂, -⟩ := ihInside hs₁
      exact hbehind (hbehind (ihRest hs₂))

theorem ends_read {done : Message → Prop} : EndsIn source (· = .symbol '\x7d') done (read source) :=
  .bind_right passes_readHead fun _ => ends_readBody _

end Message

namespace Schema

theorem ends_readItemNamed {done : Item → Prop} (word : String) :
    EndsIn source IsEnd done (readItemNamed source word) := by
  unfold readItemNamed
  split
  · exact IsEnd.ends_semicolon (.bind_right (.next _) fun _ => .bind_pure ends_readEdition)
  split
  · exact IsEnd.ends_semicolon (.bind_right (.next _) fun _ => .bind_pure ends_readPackage)
  split
  · exact IsEnd.ends_semicolon (.bind_right (.next _) fun _ => .bind_pure ends_readImport)
  split
  · exact IsEnd.ends_semicolon (.bind_pure Setting.ends_readStatement)
  split
  · exact IsEnd.ends_brace (.bind_right (.next _) fun _ => .bind_pure Message.ends_read)
  split
  · exact IsEnd.ends_brace (.bind_right (.next _) fun keyword => .bind_pure (EnumDef.ends_read keyword))
  split
  · exact IsEnd.ends_brace (.bind_right (.next _) fun _ => .bind_pure ends_skipBlock)
  · exact .refuse _

/-- **A statement ends in a semicolon or in a brace.** -/
theorem ends_readItem {done : Item → Prop} : EndsIn source IsEnd done (readItem source) := by
  intro s p ws x s' hs h hx
  obtain ⟨kind, s₁, h1, h2⟩ := exists_of_bind h
  obtain ⟨rfl, hkind⟩ := eq_of_peek? h1
  split at h2
  · next c =>
      split at h2
      · next hc =>
          obtain ⟨t, s₂, h3, h4⟩ := exists_of_bind h2
          cases h4
          obtain ⟨vs, ws', hws, hs', hvs⟩ := EndsIn.next_of_kind hkind hs h3
          exact ⟨vs, ws', hws, hs', hvs.mono fun k hk => .inl (by rw [hk, hc])⟩
      · exact absurd h2 (refuse_ne_ok _ _ _)
  · exact ends_readItemNamed _ hs h2 hx
  · exact absurd h2 (refuse_ne_ok _ _ _)

-- ── Statements in a row ──────────────────────────────────────────────────────────

/-- A schema with the statements of another behind its own. -/
def append (s t : Schema) : Schema :=
  { edition  := t.edition.or s.edition
    package  := t.package.or s.package
    imports  := s.imports ++ t.imports
    settings := s.settings ++ t.settings
    messages := s.messages ++ t.messages
    enums    := s.enums ++ t.enums }

theorem append_empty (s : Schema) : s.append {} = s := by
  simp [append]

theorem empty_append (s : Schema) : append {} s = s := by
  simp [append]

theorem append_assoc (s t u : Schema) : (s.append t).append u = s.append (t.append u) := by
  simp [append, Option.or_assoc]

/-- One more statement is a schema of its own behind the others. -/
theorem push_eq_append (s : Schema) (x : Item) : s.push x = s.append (push {} x) := by
  cases x <;> simp [push, append]

theorem bare_append (s t : Schema) : (s.append t).bare = s.bare.append t.bare := by
  simp [bare, append]

/-- What says the same before a statement says the same after it. -/
theorem bare_push (s : Schema) (x : Item) : (s.push x).bare = s.bare.push x.bare := by
  cases x <;> simp [push, bare, Item.bare]

/-- Words state a schema: wherever they stand in a source, they are read as statements that declare what it
    does, behind those that have been read. -/
def StatedBy (source : List Char) (s : Schema) (W : List Word) : Prop :=
  ∀ ⦃q t us⦄ (g : Schema), Lies source q W → t.tokens = significant (placed q W) ++ us →
    ∃ h t', t'.tokens = us ∧ h.bare = (g.append s).bare ∧
      iterate (step source) (proceeds_step source) g t = iterate (step source) (proceeds_step source) h t'

namespace StatedBy

variable {s t : Schema} {W V : List Word}

theorem of_comments (hW : ∀ w ∈ W, w.kind.isComment = true) : StatedBy source {} W := by
  intro q t us g _ ht
  rw [significant_placed_comments hW, List.nil_append] at ht
  exact ⟨g, t, ht, by rw [append_empty], rfl⟩

theorem append (h : StatedBy source s W) (h' : StatedBy source t V) :
    StatedBy source (s.append t) (W ++ V) := by
  intro q u us g hq hu
  rw [placed_append, significant_append, List.append_assoc] at hu
  obtain ⟨g₁, u₁, hu₁, hg₁, hrun₁⟩ := h g hq.left hu
  obtain ⟨g₂, u₂, hu₂, hg₂, hrun₂⟩ := h' g₁ hq.right hu₁
  refine ⟨g₂, u₂, hu₂, ?_, hrun₁.trans hrun₂⟩
  rw [hg₂, bare_append, hg₁, ← bare_append, append_assoc]

/-- The words of a statement. -/
theorem of_item {x : Item} (h : Rereads source (readItem source) W fun y => x.bare = y.bare) :
    StatedBy source (push {} x) W := by
  intro q u us g hq hu
  obtain ⟨y, u', hy, hu', hxy⟩ := h hq (t := { u with held := [] }) hu
  refine ⟨g.push y, u', hu', ?_, ?_⟩
  · rw [← push_eq_append, bare_push, bare_push, hxy]
  · rw [iterate_eq, bind_ok (step_of_item g hy)]
    rfl

end StatedBy

/-- Words that are read to the end: nothing but comments, or words that end as a statement does. -/
def IsWhole (ws : List Word) : Prop :=
  (∀ w ∈ ws, w.kind.isComment = true) ∨ EndIn IsEnd ws

/-- The words that a statement was read from state it. -/
theorem readItem_inv {x : Item} {s s' : Stream} {ws : List Word} (hs : s.Holds source p ws)
    (h : readItem source s = .ok (x, s')) :
    ∃ vs ws', ws = vs ++ ws' ∧ s'.Holds source (p.after (textOf vs)) ws' ∧ EndIn IsEnd vs ∧
      ∀ source', (push {} x).StatedBy source' vs := by
  have hitem : EndsIn source IsEnd (fun _ => True) (readItem source) := ends_readItem
  obtain ⟨vs, ws', rfl, hs', hends⟩ := hitem hs h trivial
  refine ⟨vs, ws', rfl, hs', hends, fun source' => ?_⟩
  obtain ⟨us, ws'', hus, hs'', hagain⟩ := copies_readItem h hs
  obtain ⟨rfl, rfl⟩ := hs'.cut_unique hs'' hus
  exact .of_item hagain

/-- **The statements up to the end of the input state what they add.** -/
theorem statedBy_iterate {g g' : Schema} {s s' : Stream} {ws : List Word} (hs : s.Holds source p ws)
    (h : iterate (step source) (proceeds_step source) g s = .ok (g', s')) :
    ∃ t, g' = g.append t ∧ (∀ source', t.StatedBy source' ws) ∧ IsWhole ws := by
  fun_induction iterate (step source) (proceeds_step source) g s generalizing p ws with
  | case1 => cases h
  | case2 g s a s₁ h1 =>
      cases h
      rcases step_inv h1 with ⟨hx, hitems, rfl⟩ | ⟨_, hx, _⟩
      case inr => cases hx
      cases hx
      have hcomments := hs.comments_of_nil hitems
      exact ⟨{}, (append_empty _).symm, fun _ => .of_comments hcomments, .inl hcomments⟩
  | case3 g s b s₁ h1 hlt ih =>
      rcases step_inv h1 with ⟨hx, _, _⟩ | ⟨x, hx, h2⟩
      case inl => cases hx
      cases hx
      obtain ⟨vs, ws', rfl, hs₁, hends, hstated⟩ := readItem_inv (hs.held []) h2
      obtain ⟨t, rfl, ht, hwhole⟩ := ih hs₁ h
      refine ⟨(push {} x).append t, ?_, fun source' => (hstated source').append (ht source'), .inr ?_⟩
      · rw [push_eq_append, append_assoc]
      · rcases hwhole with hcomments | hlast
        · exact hends.behind hcomments
        · exact hlast.prepend vs

/-- **The words of a source state its schema**, wherever they stand. -/
theorem statedBy_parse {source : String} {s : Schema} (h : parse source = .ok s) :
    ∃ W tail, source.toList = textOf W ++ tail ∧ tail.all Text.isBlank = true ∧ Reads tail W ∧
      (∀ source', s.StatedBy source' W) ∧ IsWhole W := by
  obtain ⟨W, tail, s', hsource, htail, hreads, hrun⟩ := parse_inv h
  obtain ⟨t, ht, hstated, hwhole⟩ := statedBy_iterate (holds_ofTokens hreads hsource) hrun
  rw [empty_append] at ht
  exact ⟨W, tail, hsource, htail, hreads, ht ▸ hstated, hwhole⟩

end Schema

end FlagSchema
