import FlagSchema.Proofs.Messages
import FlagSchema.Reading.Schema

/-!
# Schemas that are lowered

A schema is read as what lowering makes of it. The scope of its declarations is known at its end only, so it
is a parameter here; a statement is read without regard to what the schema already holds.

* **`Schema.Item`**, **`Schema.readItem`**: a top-level statement.
* **`Schema.flagsChange`**, **`Schema.IsLowered`**: the account of a schema, and a schema that is lowered.
* **`Schema.recast_iterate`**: the statements up to the end of the input.
-/

namespace FlagSchema

open Token Reader Piece

variable {source : List Char} {p : Place}

namespace Schema

-- ── Statements ───────────────────────────────────────────────────────────────────

/-- A top-level statement. -/
inductive Item where
  /-- A statement that declares nothing here. -/
  | skip
  | edition (edition : String)
  | package (package : String)
  | path (path : String)
  | setting (s : Setting)
  | message (m : Message)
  | enum (e : EnumDef)

/-- A schema with one more statement. -/
def push (schema : Schema) : Item → Schema
  | .skip            => schema
  | .edition edition => { schema with edition := some edition }
  | .package package => { schema with package := some package }
  | .path path       => { schema with imports := schema.imports ++ [path] }
  | .setting s       => { schema with settings := schema.settings ++ [s] }
  | .message m       => { schema with messages := schema.messages ++ [m] }
  | .enum e          => { schema with enums := schema.enums ++ [e] }

/-- The string of a `syntax` or `edition` statement, after its keyword. -/
def readEdition : Reader String := do
  let _ ← symbol '='
  let (edition, _) ← readString .syntaxString
  let _ ← symbol ';'
  pure edition

/-- The name of a package, after its keyword. -/
def readPackage : Reader String := do
  let (package, _) ← Reader.name .packageName
  let _ ← symbol ';'
  pure package

/-- The statement that a word starts. -/
def readItemNamed (source : List Char) (word : String) : Reader Item :=
  if word = "syntax" ∨ word = "edition" then
    next .topLevelStatement >>= fun _ => readEdition >>= fun e => pure (.edition e)
  else if word = "package" then
    next .topLevelStatement >>= fun _ => readPackage >>= fun p => pure (.package p)
  else if word = "import" then
    next .topLevelStatement >>= fun _ => readImport >>= fun path => pure (.path path)
  else if word = "option" then Setting.readStatement source >>= fun s => pure (.setting s)
  else if word = "message" then
    next .topLevelStatement >>= fun _ => Message.read source >>= fun m => pure (.message m)
  else if word = "enum" then
    next .topLevelStatement >>= fun keyword => EnumDef.read source keyword >>= fun e => pure (.enum e)
  else if word = "service" ∨ word = "extend" then
    next .topLevelStatement >>= fun _ => skipBlock >>= fun _ => pure .skip
  else refuse .topLevelStatement

/-- One top-level statement. -/
def readItem (source : List Char) : Reader Item := do
  match ← peek? with
  | some (.symbol c) =>
    if c = ';' then next .topLevelStatement >>= fun _ => pure .skip else refuse .topLevelStatement
  | some (.ident word) => readItemNamed source word
  | _ => refuse .topLevelStatement

theorem refuse_bind {α β : Type} (what : Expectation) (f : α → Reader β) :
    (refuse what : Reader α) >>= f = refuse what := by
  funext s
  show (refuse what s >>= fun x => _) = _
  unfold refuse
  split <;> rfl

/-- The statement that a word starts is added to the schema. -/
theorem readNamed_eq (source : List Char) (schema : Schema) (word : String) :
    readNamed source schema word = readItemNamed source word >>= fun x => pure (schema.push x) := by
  unfold readNamed readItemNamed
  split_ifs <;> simp only [readEdition, readPackage, bind_assoc, pure_bind, refuse_bind, push]

/-- A statement is added to the schema. -/
theorem readStatement_eq (source : List Char) (schema : Schema) :
    readStatement source schema = readItem source >>= fun x => pure (schema.push x) := by
  unfold readStatement readItem
  rw [bind_assoc]
  congr 1
  funext kind
  cases kind with
  | none => exact (refuse_bind _ _).symm
  | some k =>
      cases k with
      | symbol c =>
          by_cases hc : c = ';'
          · simp only [if_pos hc, bind_assoc, pure_bind, push]
          · simp only [if_neg hc, refuse_bind]
      | ident word => exact readNamed_eq ..
      | _ => exact (refuse_bind _ _).symm

-- ── Lowered schemas ──────────────────────────────────────────────────────────────

variable (symbols : Symbols) (sets : List FlagSet)

/-- The account of a schema whose declarations are in a scope. -/
def flagsChange (source : List Char) (scope : String) (s : Schema) : Change :=
  (s.enums.map (EnumDef.flagsChange source)).sum +
    (s.messages.map (Message.flagsChange symbols sets source scope)).sum

/-- A schema is what lowering makes of another whose declarations are in a scope, places and comments
    apart. -/
structure IsLowered (scope : String) (s g : Schema) : Prop where
  edition  : g.edition = s.edition
  package  : g.package = s.package
  imports  : g.imports = s.imports
  settings : g.settings.map Setting.bare = s.settings.map Setting.bare
  messages : g.messages.map Message.bare = s.messages.map fun m => (m.lowered symbols sets scope).bare
  enums    : g.enums.map EnumDef.bare = s.enums.map fun e => e.asFlags.bare

/-- The account of a statement. -/
def Item.change (source : List Char) (scope : String) : Item → Change
  | .message m => m.flagsChange symbols sets source scope
  | .enum e    => e.flagsChange source
  | .skip | .edition _ | .package _ | .path _ | .setting _ => 0

/-- A statement is what lowering makes of another. -/
inductive Item.Lowered (scope : String) : Item → Item → Prop where
  | skip : Lowered scope .skip .skip
  | edition (edition : String) : Lowered scope (.edition edition) (.edition edition)
  | package (package : String) : Lowered scope (.package package) (.package package)
  | path (path : String) : Lowered scope (.path path) (.path path)
  | setting {x y : Setting} (h : x.bare = y.bare) : Lowered scope (.setting x) (.setting y)
  | message {m g : Message} (h : m.IsLowered symbols sets scope g) :
      Lowered scope (.message m) (.message g)
  | enum {e g : EnumDef} (h : g.bare = e.asFlags.bare) : Lowered scope (.enum e) (.enum g)

variable {symbols sets} {scope : String}

/-- One more statement. -/
theorem IsLowered.push {s g : Schema} {x y : Item} (h : s.IsLowered symbols sets scope g)
    (hxy : x.Lowered symbols sets scope y) : (s.push x).IsLowered symbols sets scope (g.push y) := by
  cases hxy with
  | skip => exact h
  | edition e => exact { h with edition := rfl }
  | package p => exact { h with package := rfl }
  | path path =>
      refine { h with imports := ?_ }
      rw [Schema.push, Schema.push, h.imports]
  | setting hx =>
      refine { h with settings := ?_ }
      rw [Schema.push, Schema.push, List.map_append, List.map_append, h.settings, List.map_singleton,
        List.map_singleton, hx]
  | message hm =>
      refine { h with messages := ?_ }
      rw [Schema.push, Schema.push, List.map_append, List.map_append, h.messages, List.map_singleton,
        List.map_singleton, show Message.bare _ = _ from hm]
  | enum he =>
      refine { h with enums := ?_ }
      rw [Schema.push, Schema.push, List.map_append, List.map_append, h.enums, List.map_singleton,
        List.map_singleton, he]

variable (symbols sets scope)

theorem flagsChange_push (s : Schema) (x : Item) :
    (s.push x).flagsChange symbols sets source scope
      = s.flagsChange symbols sets source scope + x.change symbols sets source scope := by
  cases x with
  | message m =>
      simp only [flagsChange, Schema.push, Item.change, List.map_append, List.sum_append,
        List.map_singleton, List.sum_singleton, add_assoc]
  | enum e =>
      simp only [flagsChange, Schema.push, Item.change, List.map_append, List.sum_append,
        List.map_singleton, List.sum_singleton]
      abel
  | _ => exact (add_zero _).symm

-- ── Statements that stay ─────────────────────────────────────────────────────────

theorem ends_readEdition {done : String → Prop} : EndsIn source (· = .symbol ';') done readEdition :=
  .bind_right (.symbol _) fun _ => .bind_right (passes_readString _) fun _ => .bind_pure (.symbol _)

theorem ends_readPackage {done : String → Prop} : EndsIn source (· = .symbol ';') done readPackage :=
  .bind_right (.name _) fun _ => .bind_pure (.symbol _)

theorem ends_readImport {done : String → Prop} : EndsIn source (· = .symbol ';') done readImport :=
  .bind_right (.accept _) fun _ => .bind_right (passes_readString _) fun _ => .bind_pure (.symbol _)

theorem closes_readEdition {done : String → Prop} : Closes source done readEdition :=
  ends_readEdition.closes (by decide) (by decide)

theorem closes_readPackage {done : String → Prop} : Closes source done readPackage :=
  ends_readPackage.closes (by decide) (by decide)

theorem closes_readImport {done : String → Prop} : Closes source done readImport :=
  ends_readImport.closes (by decide) (by decide)

variable {source' : List Char} {q : Place}

/-- A string and the semicolon behind it. -/
theorem replays_path (what : Expectation) :
    Replays source source' p q 0 (Outcome.value Eq)
      (readString what >>= fun x => Reader.symbol ';' >>= fun _ => pure x.1)
      (readString what >>= fun x => Reader.symbol ';' >>= fun _ => pure x.1) := by
  refine .bind (replays_readString _) (.inr ⟨1, Nat.le_refl _, fun _ => .bind_left (.symbol _) fun _ => .pure _⟩)
    (passes_readString _) (fun _ => .bind (.symbol _) fun _ => .pure _) ?_
  rintro _ ⟨path, t⟩ ⟨_, t'⟩ ⟨rfl, -⟩
  refine .bind (.symbol _) (.inl (Nat.le_refl _)) (.symbol _) (fun _ => .pure _) ?_
  intro _ _ _ _
  exact .pure rfl

theorem passes_path (what : Expectation) : Passes source false
    (readString what >>= fun x => Reader.symbol ';' >>= fun _ => pure x.1) :=
  .bind (passes_readString _) fun _ => .bind (.symbol _) fun _ => .pure _

theorem replays_readEdition :
    Replays source source' p q 0 (Outcome.value Eq) readEdition readEdition :=
  .bind (.symbol _) (.inl (Nat.le_refl _)) (.symbol _) (fun _ => passes_path _)
    fun _ _ _ _ => replays_path _

theorem replays_readPackage :
    Replays source source' p q 0 (Outcome.value Eq) readPackage readPackage :=
  .nameThen _ _ fun _ _ _ _ _ => rfl

theorem replays_readImport :
    Replays source source' p q 0 (Outcome.value Eq) readImport readImport :=
  .bind (.accept _)
    (.inr ⟨1, Nat.le_refl _, fun _ => .bind_left (takes_readString _) fun _ =>
      .bind_right ((Takes.symbol _).mono (Nat.zero_le _)) fun _ => .pure _⟩)
    (.accept _) (fun _ => passes_path _) fun _ _ _ _ => replays_path _

-- ── The statement that a word starts ─────────────────────────────────────────────

/-- The statement that a word starts is read as what lowering makes of it. -/
theorem recast_readItemNamed {word : String} {x : Item} {s s' : Stream} {ws : List Word}
    (hkind : s.kindAt? 0 = some (.ident word)) (hs : s.Holds source p ws)
    (h : readItemNamed source word s = .ok (x, s')) :
    Recasts source p ws s' (x.change symbols sets source scope) fun W => Starts (.ident word) W ∧
      ∀ source', Rereads source' (readItemNamed source' word) W (x.Lowered symbols sets scope) := by
  have hparts : (Kind.ident word).Parts := .ident word
  unfold readItemNamed at h ⊢
  split at h
  · next hedition =>
      simp only [if_pos hedition]
      exact .behind_closes (b := x) hkind hparts closes_readEdition (fun _ _ _ => replays_readEdition) hs h
        (fun _ => rfl) fun edition _ hsame => hsame ▸ .edition edition
  split at h
  · next hedition hpackage =>
      simp only [if_neg hedition, if_pos hpackage]
      exact .behind_closes (b := x) hkind hparts closes_readPackage (fun _ _ _ => replays_readPackage) hs h
        (fun _ => rfl) fun package _ hsame => hsame ▸ .package package
  split at h
  · next hedition hpackage himport =>
      simp only [if_neg hedition, if_neg hpackage, if_pos himport]
      exact .behind_closes (b := x) hkind hparts closes_readImport (fun _ _ _ => replays_readImport) hs h
        (fun _ => rfl) fun path _ hsame => hsame ▸ .path path
  split at h
  · next hedition hpackage himport hoption =>
      simp only [if_neg hedition, if_neg hpackage, if_neg himport, if_pos hoption]
      obtain ⟨y, s₁, h1, h2⟩ := exists_of_bind h
      cases h2
      refine (Recasts.of_closes_from hkind (Setting.takes_readStatement _) Setting.closes_readStatement
        (fun _ _ => Setting.replays_readStatement) hs h1).mono fun W hW => ⟨hW.1, fun source' => ?_⟩
      exact (hW.2 source').map fun g hg => .setting hg
  split at h
  · next hedition hpackage himport hoption hmessage =>
      simp only [if_neg hedition, if_neg hpackage, if_neg himport, if_neg hoption, if_pos hmessage]
      obtain ⟨t, s₁, h1, h⟩ := exists_of_bind h
      obtain ⟨m, s₂, h2, h3⟩ := exists_of_bind h
      cases h3
      refine .behind_next hkind hparts hs h1 fun p ws hs₁ => ?_
      refine (Message.recast_read symbols sets scope hs₁ h2).mono fun W hW source' _ => ?_
      exact (hW source').map fun g hg => .message hg
  split at h
  · next hedition hpackage himport hoption hmessage henum =>
      simp only [if_neg hedition, if_neg hpackage, if_neg himport, if_neg hoption, if_neg hmessage,
        if_pos henum]
      obtain ⟨t, s₁, h1, h⟩ := exists_of_bind h
      obtain ⟨e, s₂, h2, h3⟩ := exists_of_bind h
      cases h3
      refine .behind_next hkind hparts hs h1 fun p ws hs₁ => ?_
      refine (EnumDef.recast_read hs₁ h2).mono fun W hW source' keyword' => ?_
      exact (hW source' keyword').map fun g hg => .enum hg
  split at h
  · next hedition hpackage himport hoption hmessage henum hblock =>
      simp only [if_neg hedition, if_neg hpackage, if_neg himport, if_neg hoption, if_neg hmessage,
        if_neg henum, if_pos hblock]
      exact .behind_closes (b := x) hkind hparts closes_skipBlock (fun _ _ _ => replays_skipBlock) hs h
        (fun _ => rfl) fun _ _ _ => .skip
  · exact absurd h (refuse_ne_ok _ _ _)

/-- **A statement is read as what lowering makes of it.** -/
theorem recast_readItem {x : Item} {s s' : Stream} {ws : List Word} (hs : s.Holds source p ws)
    (h : readItem source s = .ok (x, s')) :
    Recasts source p ws s' (x.change symbols sets source scope) fun W =>
      ∀ source', Rereads source' (readItem source') W (x.Lowered symbols sets scope) := by
  obtain ⟨kind, s₁, h1, hitem⟩ := exists_of_bind h
  obtain ⟨rfl, hkind⟩ := eq_of_peek? h1
  split at hitem
  · next c =>
      split at hitem
      · next hc =>
          obtain ⟨t, s₂, h2, h3⟩ := exists_of_bind hitem
          cases h3
          have hparts : (Kind.symbol c).Parts := hc ▸ .inr ⟨_, rfl, by decide, by decide⟩
          refine (Recasts.next hkind hparts hs h2).mono fun W hW source' => ?_
          refine .peek? hW.1 rfl ?_
          dsimp only
          rw [if_pos hc]
          exact (hW.2 source').map fun _ _ => .skip
      · exact absurd hitem (refuse_ne_ok _ _ _)
  · refine (recast_readItemNamed symbols sets scope hkind hs hitem).mono fun W hW source' => ?_
    exact .peek? hW.1 rfl (hW.2 source')
  · exact absurd hitem (refuse_ne_ok _ _ _)

-- ── The end of the input ─────────────────────────────────────────────────────────

/-- A step at the end of the input, or in front of a statement. -/
theorem step_inv {schema : Schema} {x : Schema ⊕ Schema} {s s' : Stream}
    (h : step source schema s = .ok (x, s')) :
    (x = .inr schema ∧ s.items = [] ∧ s' = { s with held := [] }) ∨
      ∃ item, x = .inl (schema.push item) ∧
        readItem source { s with held := [] } = .ok (item, s') := by
  obtain ⟨_, s₁, h1, h⟩ := exists_of_bind h
  cases h1
  obtain ⟨ended, s₂, h2, h⟩ := exists_of_bind h
  cases h2
  split at h
  · next hended =>
      cases h
      exact .inl ⟨rfl, List.isEmpty_iff.mp hended, rfl⟩
  · obtain ⟨schema', s₃, h3, h4⟩ := exists_of_bind h
    cases h4
    rw [readStatement_eq] at h3
    obtain ⟨item, s₄, h5, h6⟩ := exists_of_bind h3
    cases h6
    exact .inr ⟨item, rfl, h5⟩

/-- At the end of the input nothing is added. -/
theorem step_of_nil (source : List Char) (schema : Schema) {t : Stream} (ht : t.tokens = []) :
    step source schema t = .ok (.inr schema, { t with held := [] }) := by
  have hitems : t.items = [] := List.map_eq_nil_iff.mp ht
  show (if t.items.isEmpty = true then _ else _ : Reader (Schema ⊕ Schema)) { t with held := [] } = _
  rw [hitems]
  rfl

theorem takes_readItem (source : List Char) : Takes 1 (readItem source) := by
  intro s item s' h
  refine takes_readStatement source {} (s := s) (a := push {} item) ?_
  rw [readStatement_eq]
  exact bind_ok h

/-- A statement that can be read is added. -/
theorem step_of_item (schema : Schema) {t t' : Stream} {item : Item}
    (h : readItem source { t with held := [] } = .ok (item, t')) :
    step source schema t = .ok (.inl (schema.push item), t') := by
  have hitems : t.items.isEmpty ≠ true := by
    intro hnil
    have htakes := takes_readItem source h
    rw [Stream.size, Stream.size, List.isEmpty_iff.mp hnil, List.length_nil] at htakes
    exact absurd htakes (Nat.not_succ_le_zero _)
  show (if t.items.isEmpty = true then _ else _ : Reader (Schema ⊕ Schema)) { t with held := [] } = _
  rw [if_neg hitems, readStatement_eq, bind_assoc]
  exact bind_ok h

/-- **The statements up to the end of the input are read as what lowering makes of them.** -/
theorem recast_iterate {schema schema' : Schema} {s s' : Stream} {ws : List Word}
    (hs : s.Holds source p ws)
    (h : iterate (step source) (proceeds_step source) schema s = .ok (schema', s')) :
    ∃ c, (s'.items = [] ∧ schema'.flagsChange symbols sets source scope
        = schema.flagsChange symbols sets source scope + c) ∧
      Recasts source p ws s' c fun W => ∀ source' g, schema.IsLowered symbols sets scope g →
        RereadsAll source' (iterate (step source') (proceeds_step source') g) W
          (schema'.IsLowered symbols sets scope) := by
  fun_induction iterate (step source) (proceeds_step source) schema s generalizing p ws with
  | case1 => cases h
  | case2 schema s a s₁ h1 =>
      cases h
      rcases step_inv h1 with ⟨hx, hitems, rfl⟩ | ⟨_, hx, _⟩
      case inr => cases hx
      cases hx
      refine ⟨0, ⟨hitems, (add_zero _).symm⟩,
        .keep (List.nil_append ws).symm (hs.held []) (.of_comments (List.forall_mem_nil _)) ?_⟩
      intro source' g hg q t _ ht
      rw [iterate_eq]
      exact ⟨g, _, bind_ok (step_of_nil source' g ht), hg⟩
  | case3 schema s b s₁ h1 hlt ih =>
      rcases step_inv h1 with ⟨hx, _, _⟩ | ⟨item, hx, h2⟩
      case inl => cases hx
      cases hx
      obtain ⟨d, ⟨hitems, hd⟩, hrecasts⟩ :=
        (recast_readItem symbols sets scope (hs.held []) h2).seq_exists fun p ws hs₁ => ih hs₁ h
      refine ⟨_, ⟨hitems, ?_⟩, hrecasts.mono ?_⟩
      · rw [hd, flagsChange_push, add_assoc]
      · rintro _ ⟨W₁, W₂, rfl, hW₁, hW₂⟩ source' g hg q t hq ht
        rw [placed_append, significant_append] at ht
        obtain ⟨y, t₁, hy, ht₁, hrel⟩ := hW₁ source' hq.left (t := { t with held := [] }) ht
        rw [iterate_eq, bind_ok (step_of_item g hy)]
        exact hW₂ source' _ (hg.push hrel) hq.right ht₁

end Schema

end FlagSchema
