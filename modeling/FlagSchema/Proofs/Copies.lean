import FlagSchema.Proofs.Lowering

/-!
# Reading copied words

No reader looks behind the words that it takes. So the words of one text are taken again in any other text,
behind whatever has been read there, and declare the same.

* **`Reader.Copies`**: the words that a reader takes are taken by another one wherever they stand.
* **`Reader.Copies.bind`**, **`Reader.Copies.iterate`**: what holds of readers holds of them in a row.
* **`Message.copies_readBody`**, **`Schema.copies_readItem`**: messages and statements on copied words.
-/

namespace FlagSchema

open Token Reader

variable {source source' : List Char} {p q : Place}

-- ── Copied words ─────────────────────────────────────────────────────────────────

namespace Reader

variable {α β γ δ σ τ : Type}

/-- The words between two streams are taken by a reader wherever they stand in another source, with a certain
    result. -/
def Copied (source source' : List Char) (s s' : Stream) (r : Reader α) (P : α → Prop) : Prop :=
  ∀ ⦃p ws⦄, s.Holds source p ws →
    ∃ vs ws', ws = vs ++ ws' ∧ s'.Holds source (p.after (textOf vs)) ws' ∧ Rereads source' r vs P

namespace Copied

variable {s s₁ s' : Stream} {P : α → Prop} {Q : β → Prop}

theorem refl {r : Reader α} {a : α} (hr : ∀ t, r t = .ok (a, t)) (ha : P a) : Copied source source' s s r P :=
  fun _ ws hs => ⟨[], ws, rfl, hs, fun _ t _ _ ht => ⟨a, t, hr t, ht, ha⟩⟩

/-- Two readers in a row. -/
theorem bind {r : Reader α} {f : α → Reader β} (h : Copied source source' s s₁ r P)
    (hf : ∀ a, P a → Copied source source' s₁ s' (f a) Q) (hne : ∃ a, P a) :
    Copied source source' s s' (r >>= f) Q := by
  intro p ws hs
  obtain ⟨vs, ws₁, rfl, hs₁, hr⟩ := h hs
  obtain ⟨a, ha⟩ := hne
  obtain ⟨us, ws', rfl, hs', -⟩ := hf a ha hs₁
  refine ⟨vs ++ us, ws', (List.append_assoc ..).symm, ?_, hr.bind fun b hb => ?_⟩
  · rw [textOf_append, Place.after_append]
    exact hs'
  -- The second reader takes the same words whatever the value that it is given.
  · obtain ⟨us', ws'', hus, hs'', hagain⟩ := hf b hb hs₁
    obtain ⟨rfl, rfl⟩ := hs'.cut_unique hs'' hus
    exact hagain

/-- Looking at the next token before taking it. -/
theorem peek? {f : Option Kind → Reader α} (h : Copied source source' s s' (f (s.kindAt? 0)) P)
    (hsize : s'.size < s.size) : Copied source source' s s' (Reader.peek? >>= f) P := by
  intro p ws hs
  obtain ⟨vs, ws', rfl, hs', hagain⟩ := h hs
  obtain ⟨cs, w, us, rfl, hcs, hw⟩ := exists_first (hs.significant_ne_nil hs' rfl hsize)
  rw [List.append_assoc, List.cons_append] at hs
  rw [hs.kindAt?_zero hcs hw] at hagain
  exact ⟨cs ++ w :: us, ws', rfl, hs', .peek? ⟨cs, w, us, rfl, hcs, rfl⟩ hw hagain⟩

/-- Comments that are held do not matter. -/
theorem dropHeld {r : Reader α} (h : Copied source source' { s with held := [] } s' r P) :
    Copied source source' s s' (Reader.dropHeld >>= fun _ => r) P := by
  intro p ws hs
  obtain ⟨vs, ws', rfl, hs', hagain⟩ := h (hs.held [])
  exact ⟨vs, ws', rfl, hs', hagain.dropHeld⟩

/-- Where no token is left, all words are. -/
theorem rereads {r : Reader α} (h : Copied source source' s s' r P) {ws : List Word} (hs : s.Holds source p ws)
    (hs' : s'.tokens = []) : Rereads source' r ws P := by
  obtain ⟨vs, ws', rfl, hrest, hagain⟩ := h hs
  rw [hrest.tokens] at hs'
  intro q t us hq ht
  have hcomments : significant (placed (q.after (textOf vs)) ws') = [] := by
    refine List.map_eq_nil_iff.mp ((kinds_significant_placed _ (p.after (textOf vs)) ws').trans ?_)
    rw [hs', List.map_nil]
  rw [placed_append, significant_append, hcomments, List.append_nil] at ht
  exact hagain hq.left ht

end Copied

/-- The words that a reader takes are taken by another one wherever they stand in another source, and both
    values show the same. -/
def Copies (source source' : List Char) (view : α → γ) (r r' : Reader α) : Prop :=
  ∀ ⦃s a s'⦄, r s = .ok (a, s') → Copied source source' s s' r' fun b => view a = view b

namespace Copies

variable {view : α → γ} {view' : β → δ}

/-- A reader that replays what another did looks at no more than the words that it takes. -/
theorem of_replays {r r' : Reader α} (hp : Passes source false r)
    (hr : ∀ p q, Replays source source' p q 0 (Outcome.value fun a b => view a = view b) r r') :
    Copies source source' view r r' := by
  intro s a s' h p ws hs
  obtain ⟨vs, ws', rfl, hs', -⟩ := hp hs h
  exact ⟨vs, ws', rfl, hs', Replays.rereads (hr p) hs h hs'⟩

theorem pure {a b : α} (h : view a = view b) : Copies source source' view (Pure.pure a) (Pure.pure b) := by
  intro s a' s' hr
  cases hr
  exact .refl (fun _ => rfl) h

theorem refuse {what : Expectation} {r : Reader α} : Copies source source' view (Reader.refuse what) r :=
  fun _ _ _ h => absurd h (refuse_ne_ok _ _ _)

theorem passes {r r' : Reader α} (h : Copies source source view r r') : Passes source false r := by
  intro s p ws a s' hs hr
  obtain ⟨vs, ws', hws, hs', -⟩ := h hr hs
  exact ⟨vs, ws', hws, hs', nofun⟩

/-- Two readers in a row. -/
theorem bind {r r' : Reader α} {f f' : α → Reader β} (hr : Copies source source' view r r')
    (hf : ∀ a b, view a = view b → Copies source source' view' (f a) (f' b)) :
    Copies source source' view' (r >>= f) (r' >>= f') := by
  intro s c s' h
  obtain ⟨a, s₁, h1, h2⟩ := exists_of_bind h
  exact (hr h1).bind (fun b hb => hf a b hb h2) ⟨a, rfl⟩

/-- Readers chosen by the same condition. -/
theorem ite {c : Prop} [Decidable c] {r r' t t' : Reader α} (hr : Copies source source' view r r')
    (ht : Copies source source' view t t') :
    Copies source source' view (if c then r else t) (if c then r' else t') := by
  split
  · exact hr
  · exact ht

/-- Looking at the next token before taking it. -/
theorem peek? {f f' : Option Kind → Reader α} (htakes : Takes 1 (Reader.peek? >>= f))
    (hf : ∀ kind, Copies source source' view (f kind) (f' kind)) :
    Copies source source' view (Reader.peek? >>= f) (Reader.peek? >>= f') := by
  intro s a s' h
  obtain ⟨kind, s₁, h1, h2⟩ := exists_of_bind h
  cases h1
  exact (hf _ h2).peek? (htakes h)

/-- The same where the comments that are held are forgotten first. -/
theorem dropHeld_peek? {f f' : Option Kind → Reader α}
    (htakes : Takes 1 (Reader.dropHeld >>= fun _ => Reader.peek? >>= f))
    (hf : ∀ kind, Copies source source' view (f kind) (f' kind)) :
    Copies source source' view (Reader.dropHeld >>= fun _ => Reader.peek? >>= f)
      (Reader.dropHeld >>= fun _ => Reader.peek? >>= f') := by
  intro s a s' h
  obtain ⟨_, s₁, h1, h2⟩ := exists_of_bind h
  cases h1
  obtain ⟨kind, s₂, h3, h4⟩ := exists_of_bind h2
  cases h3
  have hsize : s'.size < s.size := htakes h
  exact ((hf _ h4).peek? hsize).dropHeld

theorem next (what : Expectation) : Copies source source' Token.kind (Reader.next what) (Reader.next what) :=
  of_replays (.next _) fun _ _ => (Replays.next what).mono (Nat.le_refl _) fun _ _ _ h => h.last.kind_eq

/-- A loop copies if its steps do. What it has gathered may be seen by a view of its own. -/
theorem iterate (gathered : σ → τ) {step step' : σ → Reader (σ ⊕ α)} {hstep : Proceeds step}
    {hstep' : Proceeds step'}
    (h : ∀ b b', gathered b = gathered b' →
      Copies source source' (Sum.map gathered view) (step b) (step' b'))
    {b b' : σ} (hb : gathered b = gathered b') :
    Copies source source' view (Reader.iterate step hstep b) (Reader.iterate step' hstep' b') := by
  intro s a s' hr
  rw [iterate_eq step' hstep']
  fun_induction Reader.iterate step hstep b s generalizing b' with
  | case1 => cases hr
  | case2 b s a' s₁ h1 =>
      cases hr
      refine (h b b' hb h1).bind (fun x hx => ?_) ⟨_, rfl⟩
      cases x with
      | inl c => cases hx
      | inr a' => exact .refl (fun _ => rfl) (Sum.inr.inj hx)
  | case3 b s b₁ s₁ h1 hlt ih =>
      refine (h b b' hb h1).bind (fun x hx => ?_) ⟨_, rfl⟩
      cases x with
      | inl c =>
          rw [Sum.elim_inl, iterate_eq step' hstep']
          exact ih (Sum.inl.inj hx) hr
      | inr a' => cases hx

end Copies

end Reader

-- ── Parts of statements ──────────────────────────────────────────────────────────

theorem copies_skipPast (c : Char) : Copies source source' (fun _ => ()) (skipPast c) (skipPast c) :=
  .of_replays (passes_skipPast c) fun _ _ => (replays_skipPast c).mono (Nat.le_refl _) fun _ _ _ _ => rfl

theorem copies_skipBlock : Copies source source' (fun _ => ()) skipBlock skipBlock :=
  .of_replays passes_skipBlock fun _ _ => replays_skipBlock.mono (Nat.le_refl _) fun _ _ _ _ => rfl

theorem Setting.copies_readStatement :
    Copies source source' bare (readStatement source) (readStatement source') :=
  .of_replays passes_readStatement fun _ _ => replays_readStatement

theorem Field.copies_read (oneof : Option String) :
    Copies source source' bare (read source oneof) (read source' oneof) :=
  .of_replays (passes_read oneof) fun _ _ => replays_read oneof

theorem EnumDef.copies_read (keyword keyword' : Token) :
    Copies source source' bare (read source keyword) (read source' keyword') :=
  .of_replays (passes_read keyword) fun _ _ => replays_read keyword keyword'

-- ── Messages ─────────────────────────────────────────────────────────────────────

namespace Message

/-- An element without its places and comments. -/
def Element.bare : Element → Element
  | .close         => .close
  | .skip          => .skip
  | .nested name _ => .nested name {}
  | .enum e        => .enum e.bare
  | .setting s     => .setting s.bare
  | .oneof name fs => .oneof name (fs.map Field.bare)
  | .field f       => .field f.bare

theorem Element.shape_bare (x : Element) : x.bare.shape = x.shape := by
  cases x <;> rfl

/-- What says the same before an element says the same after it. -/
theorem bare_push (m : Message) (x : Element) : (m.push x).bare = m.bare.push x.bare := by
  rw [bare_eq, bare_eq m]
  cases x <;> simp [push, Element.bare]

theorem bare_pushMessage (m inner : Message) :
    (m.pushMessage inner).bare = m.bare.pushMessage inner.bare := by
  rw [bare_eq, bare_eq m, pushMessage, pushMessage, List.map_append]
  rfl

/-- Empty messages say the same wherever they are opened. -/
theorem bare_empty (name : String) (position position' : Position) :
    ({ name, position } : Message).bare = ({ name, position := position' } : Message).bare := by
  rw [bare_eq, bare_eq]

theorem copies_oneofStep (name : String) {fs fs' : List Field} (h : fs.map Field.bare = fs'.map Field.bare) :
    Copies source source' (Sum.map (List.map Field.bare) (List.map Field.bare)) (oneofStep source name fs)
      (oneofStep source' name fs') := by
  have hmore : ∀ f f' : Field, f.bare = f'.bare → (fs ++ [f]).map Field.bare = (fs' ++ [f']).map Field.bare := by
    intro f f' hf
    rw [List.map_append, List.map_append, h, List.map_singleton, List.map_singleton, hf]
  refine .peek? (takes_oneofStep source name fs) fun kind => ?_
  cases kind with
  | none => exact .refuse
  | some kind =>
      cases kind with
      | symbol c =>
          refine .ite ?_ (.ite ?_ .refuse)
          · exact (Copies.next _).bind fun _ _ _ => .pure (congrArg Sum.inr h)
          · exact (Copies.next _).bind fun _ _ _ => .pure (congrArg Sum.inl h)
      | ident word =>
          refine .ite ?_ ?_
          · exact Setting.copies_readStatement.bind fun _ _ _ => .pure (congrArg Sum.inl h)
          · exact (Field.copies_read _).bind fun f f' hf => .pure (congrArg Sum.inl (hmore f f' hf))
      | _ => exact .refuse

theorem copies_oneofHead : Copies source source' id oneofHead oneofHead :=
  .of_replays (.bind (.name _) fun _ => .bind (.symbol _) fun _ => .pure _) fun _ _ => replays_oneofHead

theorem copies_readOneof :
    Copies source source' Element.bare (readOneof source) (readOneof source') := by
  rw [readOneof_eq, readOneof_eq]
  refine copies_oneofHead.bind fun name name' hname => ?_
  cases hname
  have hfields : Copies source source' (List.map Field.bare)
      (iterate (oneofStep source name) (.of_takes (takes_oneofStep source name)) [])
      (iterate (oneofStep source' name) (.of_takes (takes_oneofStep source' name)) []) :=
    .iterate (List.map Field.bare) (fun _ _ h => copies_oneofStep name h) rfl
  exact hfields.bind fun _ _ h => .pure (congrArg (Element.oneof name) h)

theorem copies_readHead : Copies source source' Prod.fst readHead readHead :=
  .of_replays passes_readHead fun _ _ => replays_readHead

/-- The element that a word starts. -/
theorem copies_readNamed (word : String) :
    Copies source source' Element.bare (readNamed source word) (readNamed source' word) := by
  refine .ite ?_ (.ite ?_ (.ite ?_ (.ite ?_ (.ite ?_ (.ite ?_ ?_)))))
  · exact (Copies.next _).bind fun _ _ _ => copies_readHead.bind fun x x' h =>
      .pure (congrArg (Element.nested · {}) h)
  · exact (Copies.next _).bind fun _ _ _ => (EnumDef.copies_read _ _).bind fun _ _ h =>
      .pure (congrArg Element.enum h)
  · exact Setting.copies_readStatement.bind fun _ _ h => .pure (congrArg Element.setting h)
  · exact (Copies.next _).bind fun _ _ _ => copies_readOneof
  · exact (Copies.next _).bind fun _ _ _ => (copies_skipPast _).bind fun _ _ _ => .pure rfl
  · exact (Copies.next _).bind fun _ _ _ => copies_skipBlock.bind fun _ _ _ => .pure rfl
  · exact (Field.copies_read _).bind fun _ _ h => .pure (congrArg Element.field h)

theorem copies_readElement :
    Copies source source' Element.bare (readElement source) (readElement source') := by
  refine .dropHeld_peek? (takes_readElement source) fun kind => ?_
  cases kind with
  | none => exact .refuse
  | some kind =>
      cases kind with
      | symbol c =>
          refine .ite ?_ (.ite ?_ .refuse)
          · exact (Copies.next _).bind fun _ _ _ => .pure rfl
          · exact (Copies.next _).bind fun _ _ _ => .pure rfl
      | ident word => exact copies_readNamed word
      | _ => exact .refuse

/-- **The body of a message is read again as itself**, behind elements that say the same. -/
theorem copies_readBody {m m' : Message} (h : m.bare = m'.bare) :
    Copies source source' bare (readBody source m) (readBody source' m') := by
  intro s n s' hr
  rw [readBody_eq_ok_iff] at hr
  induction hr generalizing m' with
  | close element =>
      rw [readBody_bind]
      refine (copies_readElement element).bind (fun y hy => ?_) ⟨_, rfl⟩
      cases y <;> cases hy
      exact .refl (fun _ => rfl) h
  | @push _ _ _ _ _ x element added _ ih =>
      rw [readBody_bind]
      refine (copies_readElement element).bind (fun y hxy => ?_) ⟨x, rfl⟩
      rw [readRest_of_shape (by rw [← Element.shape_bare, ← hxy, Element.shape_bare, added])]
      refine ih ?_
      rw [bare_push, bare_push, h, hxy]
  | @nested _ inner _ _ _ _ _ _ _ element _ _ ihInside ihRest =>
      rw [readBody_bind]
      refine (copies_readElement element).bind (fun y hy => ?_) ⟨_, rfl⟩
      cases y <;> cases hy
      refine (ihInside (bare_empty ..)).bind (fun inner' hinner => ?_) ⟨inner, rfl⟩
      refine ihRest ?_
      rw [bare_pushMessage, bare_pushMessage, h, hinner]

/-- **A message is read again as itself.** -/
theorem copies_read : Copies source source' bare (read source) (read source') := by
  refine copies_readHead.bind fun x x' h => copies_readBody ?_
  rw [bare_eq, bare_eq, h]

end Message

-- ── Statements ───────────────────────────────────────────────────────────────────

namespace Schema

/-- A statement without its places and comments. -/
def Item.bare : Item → Item
  | .setting s => .setting s.bare
  | .message m => .message m.bare
  | .enum e    => .enum e.bare
  | x          => x

theorem copies_readEdition : Copies source source' id readEdition readEdition :=
  .of_replays (.bind (.symbol _) fun _ => passes_path _) fun _ _ => replays_readEdition

theorem copies_readPackage : Copies source source' id readPackage readPackage :=
  .of_replays (.bind (.name _) fun _ => .bind (.symbol _) fun _ => .pure _) fun _ _ => replays_readPackage

theorem copies_readImport : Copies source source' id readImport readImport :=
  .of_replays (.bind (.accept _) fun _ => passes_path _) fun _ _ => replays_readImport

/-- The statement that a word starts. -/
theorem copies_readItemNamed (word : String) :
    Copies source source' Item.bare (readItemNamed source word) (readItemNamed source' word) := by
  refine .ite ?_ (.ite ?_ (.ite ?_ (.ite ?_ (.ite ?_ (.ite ?_ (.ite ?_ .refuse))))))
  · exact (Copies.next _).bind fun _ _ _ => copies_readEdition.bind fun _ _ h =>
      .pure (congrArg Item.edition h)
  · exact (Copies.next _).bind fun _ _ _ => copies_readPackage.bind fun _ _ h =>
      .pure (congrArg Item.package h)
  · exact (Copies.next _).bind fun _ _ _ => copies_readImport.bind fun _ _ h => .pure (congrArg Item.path h)
  · exact Setting.copies_readStatement.bind fun _ _ h => .pure (congrArg Item.setting h)
  · exact (Copies.next _).bind fun _ _ _ => Message.copies_read.bind fun _ _ h =>
      .pure (congrArg Item.message h)
  · exact (Copies.next _).bind fun _ _ _ => (EnumDef.copies_read _ _).bind fun _ _ h =>
      .pure (congrArg Item.enum h)
  · exact (Copies.next _).bind fun _ _ _ => copies_skipBlock.bind fun _ _ _ => .pure rfl

/-- **A statement is read again as itself.** -/
theorem copies_readItem : Copies source source' Item.bare (readItem source) (readItem source') := by
  refine .peek? (takes_readItem source) fun kind => ?_
  cases kind with
  | none => exact .refuse
  | some kind =>
      cases kind with
      | symbol c => exact .ite ((Copies.next _).bind fun _ _ _ => .pure rfl) .refuse
      | ident word => exact copies_readItemNamed word
      | _ => exact .refuse

end Schema

end FlagSchema
