import FlagSchema.Proofs.FlagBodies
import FlagSchema.Proofs.FlagFields

/-!
# Elements of messages that are lowered

An element of a message is read as what lowering makes of it: enums that are marked as sets of flags, fields
of such a type as integers, anything else as itself.

* **`Message.Element.change`**: the account of an element.
* **`Message.Element.Lowered`**: an element is what lowering makes of another.
* **`Message.recast_readElement`**: an element is read as what lowering makes of it.
-/

namespace FlagSchema

open Token Reader Piece

variable {source : List Char} {p : Place}

namespace Message

/-- The account of an element of a message with a full name. -/
def Element.change (source : List Char) (symbols : Symbols) (sets : List FlagSet) (message : String) :
    Element → Change
  | .enum e     => e.flagsChange source
  | .oneof _ fs => fieldsChange source symbols sets message fs
  | .field f    => f.flagsChange source symbols sets message
  | .close | .skip | .nested _ _ | .setting _ => 0

/-- An element is what lowering makes of another in a message with a full name, places and comments
    apart. -/
inductive Element.Lowered (symbols : Symbols) (sets : List FlagSet) (message : String) :
    Element → Element → Prop where
  | close : Lowered symbols sets message .close .close
  | skip : Lowered symbols sets message .skip .skip
  | nested (name : String) (position position' : Position) :
      Lowered symbols sets message (.nested name position) (.nested name position')
  | enum {e g : EnumDef} (h : g.bare = e.asFlags.bare) : Lowered symbols sets message (.enum e) (.enum g)
  | setting {x y : Setting} (h : x.bare = y.bare) : Lowered symbols sets message (.setting x) (.setting y)
  | oneof (name : String) {fs gs : List Field} (h : LoweredFields symbols sets message fs gs) :
      Lowered symbols sets message (.oneof name fs) (.oneof name gs)
  | field {f g : Field} (h : g.bare = (f.asFlags symbols sets message).bare) :
      Lowered symbols sets message (.field f) (.field g)

-- ── Heads ────────────────────────────────────────────────────────────────────────

theorem closes_readHead {done : String × Position → Prop} : Closes source done readHead :=
  .bind_right (.name _) fun _ => .bind_pure (.symbol (by decide) (by decide))

theorem passes_readHead : Passes source false readHead :=
  .bind (.name _) fun _ => .bind (.symbol _) fun _ => .pure _

theorem replays_readHead {source' : List Char} {q : Place} :
    Replays source source' p q 0 (Outcome.value fun x y => x.1 = y.1) readHead readHead :=
  .nameThen _ _ fun _ _ _ _ _ => rfl

-- ── The element that a word starts ───────────────────────────────────────────────

/-- A word that starts another element than a field. -/
def IsKeyword (word : String) : Prop :=
  word = "message" ∨ word = "enum" ∨ word = "option" ∨ word = "oneof" ∨ word = "reserved" ∨
    word = "extensions" ∨ word = "extend"

/-- No word that starts a field on its own account starts another element. -/
theorem not_isKeyword_of_starts {word : String} (h : Field.Starts word) : ¬ IsKeyword word := by
  rintro (rfl | rfl | rfl | rfl | rfl | rfl | rfl) <;> revert h <;> unfold Field.Starts <;> decide

/-- An element is read as its word tells. -/
theorem rereads_readElement {word : String} {W : List Word} {P : Element → Prop}
    (hW : Starts (.ident word) W) (h : Rereads source (readNamed source word) W P) :
    Rereads source (readElement source) W P :=
  .dropHeld (.peek? hW rfl h)

/-- Any other word starts a field. -/
theorem readNamed_field {word : String} (h : ¬ IsKeyword word) :
    readNamed source word = Field.read source none >>= fun f => pure (.field f) := by
  unfold IsKeyword at h
  simp only [not_or] at h
  obtain ⟨h1, h2, h3, h4, h5, h6, h7⟩ := h
  rw [readNamed, if_neg h1, if_neg h2, if_neg h3, if_neg h4, if_neg (by simp [h5, h6]), if_neg h7]

variable (symbols : Symbols) (sets : List FlagSet) (message : String)

/-- The element that a word starts. -/
theorem recast_readNamed {word : String} {x : Element} {s s' : Stream} {ws : List Word}
    (hkind : s.kindAt? 0 = some (.ident word)) (hs : s.Holds source p ws)
    (h : readNamed source word s = .ok (x, s')) :
    Recasts source p ws s' (x.change source symbols sets message) fun W => ∀ source',
      Rereads source' (readElement source') W (x.Lowered symbols sets message) := by
  have hparts : (Kind.ident word).Parts := .ident word
  by_cases hword : IsKeyword word
  -- A field is told by its first word, which may be another one afterwards.
  case neg =>
    rw [readNamed_field hword] at h
    obtain ⟨f, s₁, h1, h2⟩ := exists_of_bind h
    cases h2
    refine (Field.recast_asFlags (fun _ => not_isKeyword_of_starts) hkind hword hs h1 symbols sets
      message).mono fun W hW source' => ?_
    exact .dropHeld ((hW source').peek? (fun word' hword' => readNamed_field hword') fun g hg => .field hg)
  -- Anything else is told by the word that stays.
  suffices hnamed : Recasts source p ws s' (x.change source symbols sets message) fun W =>
      Starts (.ident word) W ∧
        ∀ source', Rereads source' (readNamed source' word) W (x.Lowered symbols sets message) by
    exact hnamed.mono fun W hW source' => rereads_readElement hW.1 (hW.2 source')
  unfold readNamed at h ⊢
  split at h
  · next hmessage =>
      simp only [if_pos hmessage]
      refine .behind_closes (b := x) hkind hparts closes_readHead (fun _ _ _ => replays_readHead) hs h
        (fun _ => rfl) ?_
      rintro ⟨name, position⟩ ⟨_, position'⟩ rfl
      exact .nested ..
  split at h
  · next hmessage henum =>
      simp only [if_neg hmessage, if_pos henum]
      obtain ⟨t, s₁, h1, h⟩ := exists_of_bind h
      obtain ⟨e, s₂, h2, h3⟩ := exists_of_bind h
      cases h3
      refine .behind_next hkind hparts hs h1 fun p ws hs₁ => ?_
      refine (EnumDef.recast_read hs₁ h2).mono fun W hW source' keyword' => ?_
      exact (hW source' keyword').map fun g hg => .enum hg
  split at h
  · next hmessage henum hoption =>
      simp only [if_neg hmessage, if_neg henum, if_pos hoption]
      obtain ⟨y, s₁, h1, h2⟩ := exists_of_bind h
      cases h2
      refine (Recasts.of_closes_from hkind (Setting.takes_readStatement _) Setting.closes_readStatement
        (fun _ _ => Setting.replays_readStatement) hs h1).mono fun W hW => ⟨hW.1, fun source' => ?_⟩
      exact (hW.2 source').map fun g hg => .setting hg
  split at h
  · next hmessage henum hoption honeof =>
      simp only [if_neg hmessage, if_neg henum, if_neg hoption, if_pos honeof]
      obtain ⟨t, s₁, h1, h2⟩ := exists_of_bind h
      refine .behind_next hkind hparts hs h1 fun p ws hs₁ => ?_
      obtain ⟨name, fs, rfl, hrecasts⟩ := recast_readOneof symbols sets message hs₁ h2
      refine hrecasts.mono fun W hW source' _ => (hW source').mono ?_
      rintro _ ⟨gs, rfl, hgs⟩
      exact .oneof name hgs
  split at h
  · next hmessage henum hoption honeof hreserved =>
      simp only [if_neg hmessage, if_neg henum, if_neg hoption, if_neg honeof, if_pos hreserved]
      exact .behind_closes (b := x) hkind hparts (closes_skipPast (by decide) (by decide))
        (fun _ _ _ => replays_skipPast _) hs h (fun _ => rfl) fun _ _ _ => .skip
  split at h
  · next hmessage henum hoption honeof hreserved hextend =>
      simp only [if_neg hmessage, if_neg henum, if_neg hoption, if_neg honeof, if_neg hreserved,
        if_pos hextend]
      exact .behind_closes (b := x) hkind hparts closes_skipBlock (fun _ _ _ => replays_skipBlock) hs h
        (fun _ => rfl) fun _ _ _ => .skip
  · next hmessage henum hoption honeof hreserved hextend =>
      rw [not_or] at hreserved
      rcases hword with h | h | h | h | h | h | h
      · exact absurd h hmessage
      · exact absurd h henum
      · exact absurd h hoption
      · exact absurd h honeof
      · exact absurd h hreserved.1
      · exact absurd h hreserved.2
      · exact absurd h hextend

/-- **An element is read as what lowering makes of it.** -/
theorem recast_readElement {x : Element} {s s' : Stream} {ws : List Word} (hs : s.Holds source p ws)
    (h : readElement source s = .ok (x, s')) :
    Recasts source p ws s' (x.change source symbols sets message) fun W => ∀ source',
      Rereads source' (readElement source') W (x.Lowered symbols sets message) := by
  obtain ⟨_, s₁, h1, h⟩ := exists_of_bind h
  cases h1
  obtain ⟨kind, s₂, h2, h⟩ := exists_of_bind h
  obtain ⟨rfl, hkind⟩ := eq_of_peek? h2
  have hs₁ := hs.held []
  split at h
  · exact absurd h (refuse_ne_ok _ _ _)
  · next c =>
      split at h
      · next hc =>
          obtain ⟨t, s₂, h3, h4⟩ := exists_of_bind h
          cases h4
          have hparts : (Kind.symbol c).Parts := hc ▸ .inr ⟨_, rfl, by decide, by decide⟩
          refine (Recasts.next hkind hparts hs₁ h3).mono fun W hW source' => ?_
          refine .dropHeld (.peek? hW.1 rfl ?_)
          dsimp only
          rw [if_pos hc]
          exact (hW.2 source').map fun _ _ => .close
      · next hbrace =>
          split at h
          · next hc =>
              obtain ⟨t, s₂, h3, h4⟩ := exists_of_bind h
              cases h4
              have hparts : (Kind.symbol c).Parts := hc ▸ .inr ⟨_, rfl, by decide, by decide⟩
              refine (Recasts.next hkind hparts hs₁ h3).mono fun W hW source' => ?_
              refine .dropHeld (.peek? hW.1 rfl ?_)
              dsimp only
              rw [if_neg hbrace, if_pos hc]
              exact (hW.2 source').map fun _ _ => .skip
          · exact absurd h (refuse_ne_ok _ _ _)
  · exact recast_readNamed symbols sets message hkind hs₁ h
  · exact absurd h (refuse_ne_ok _ _ _)

end Message

end FlagSchema
