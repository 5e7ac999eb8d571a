import FlagSchema.Proofs.Elements
import FlagSchema.Proofs.Nesting

/-!
# Messages that are lowered

A message is read as what lowering makes of it, at every depth. The messages nested in it are part of the
induction, which is on the number of tokens that are left.

* **`Message.flagsChange`**: the account of a message.
* **`Message.IsLowered`**: a message is what lowering makes of another.
* **`Message.ReadsBody`**: how a body is read, element by element; whatever is shown of all bodies is shown by
  induction on it.
* **`Message.recast_readBody`**, **`Message.recast_read`**: a body, a message.
-/

namespace FlagSchema

open Token Reader Piece

variable {source : List Char} {p : Place}

namespace Message

variable (symbols : Symbols) (sets : List FlagSet)

-- ── Lowered messages ─────────────────────────────────────────────────────────────

/-- The account of a message of a scope: those of its enums and fields at every depth. -/
def flagsChange (source : List Char) (scope : String) (m : Message) : Change :=
  ((enumsIn scope m).map fun x => x.2.flagsChange source).sum +
    ((fieldsIn scope m).map fun x => x.2.flagsChange source symbols sets x.1).sum

/-- A message of a scope, lowered. -/
def lowered (scope : String) (m : Message) : Message :=
  mapFields (Field.asFlags symbols sets) scope (mapEnums EnumDef.asFlags m)

/-- A message is what lowering makes of another, places and comments apart. -/
def IsLowered (scope : String) (m g : Message) : Prop := g.bare = (m.lowered symbols sets scope).bare

variable {symbols sets} {scope : String} {m g : Message}

/-- A message is what lowering makes of another if its parts are. -/
theorem isLowered_iff :
    m.IsLowered symbols sets scope g ↔ g.name = m.name ∧
      LoweredFields symbols sets (joinName scope m.name) m.fields g.fields ∧
      g.messages.map bare = m.messages.map (fun i => (i.lowered symbols sets (joinName scope m.name)).bare) ∧
      g.enums.map EnumDef.bare = m.enums.map (fun e => e.asFlags.bare) ∧
      g.settings.map Setting.bare = m.settings.map Setting.bare ∧ g.oneofs = m.oneofs := by
  rw [IsLowered, bare_eq, bare_eq, lowered, mapFields_eq, mapEnums_eq]
  simp [lowered, LoweredFields, Function.comp_def]

/-- One more element. -/
theorem IsLowered.push {x y : Element} (h : m.IsLowered symbols sets scope g)
    (hxy : x.Lowered symbols sets (joinName scope m.name) y) :
    (m.push x).IsLowered symbols sets scope (g.push y) := by
  obtain ⟨hname, hfields, hmessages, henums, hsettings, honeofs⟩ := isLowered_iff.mp h
  refine isLowered_iff.mpr ?_
  cases hxy with
  | close => exact ⟨hname, hfields, hmessages, henums, hsettings, honeofs⟩
  | skip => exact ⟨hname, hfields, hmessages, henums, hsettings, honeofs⟩
  | nested => exact ⟨hname, hfields, hmessages, henums, hsettings, honeofs⟩
  | enum he =>
      refine ⟨hname, hfields, hmessages, ?_, hsettings, honeofs⟩
      rw [Message.push, Message.push, List.map_append, List.map_append, henums, List.map_singleton,
        List.map_singleton, he]
  | setting hx =>
      refine ⟨hname, hfields, hmessages, henums, ?_, honeofs⟩
      rw [Message.push, Message.push, List.map_append, List.map_append, hsettings, List.map_singleton,
        List.map_singleton, hx]
  | oneof name hfs =>
      refine ⟨hname, hfields.append hfs, hmessages, henums, hsettings, ?_⟩
      rw [Message.push, Message.push, honeofs]
  | field hf =>
      refine ⟨hname, hfields.append ?_, hmessages, henums, hsettings, honeofs⟩
      rw [LoweredFields, List.map_singleton, hf]
      rfl

/-- One more nested message. -/
theorem IsLowered.pushMessage {inner inner' : Message} (h : m.IsLowered symbols sets scope g)
    (hinner : inner.IsLowered symbols sets (joinName scope m.name) inner') :
    (m.pushMessage inner).IsLowered symbols sets scope (g.pushMessage inner') := by
  obtain ⟨hname, hfields, hmessages, henums, hsettings, honeofs⟩ := isLowered_iff.mp h
  refine isLowered_iff.mpr ⟨hname, hfields, ?_, henums, hsettings, honeofs⟩
  rw [Message.pushMessage, Message.pushMessage, List.map_append, List.map_append, hmessages,
    List.map_singleton, List.map_singleton, show inner'.bare = _ from hinner]

-- ── Accounts of messages ─────────────────────────────────────────────────────────

variable (symbols sets scope)

/-- The accounts of several messages are those of their enums and fields. -/
theorem sum_flagsChange (ms : List Message) :
    (ms.map (flagsChange symbols sets source scope)).sum
      = ((allEnumsIn scope ms).map fun x => x.2.flagsChange source).sum +
        ((allFieldsIn scope ms).map fun x => x.2.flagsChange source symbols sets x.1).sum := by
  induction ms with
  | nil => rfl
  | cons m ms ih =>
      simp only [allEnumsIn, allFieldsIn, List.map_cons, List.sum_cons, List.map_append, List.sum_append, ih,
        flagsChange]
      abel

/-- The account of a message in terms of its parts. -/
theorem flagsChange_eq (m : Message) :
    m.flagsChange symbols sets source scope = (m.enums.map (EnumDef.flagsChange source)).sum +
      fieldsChange source symbols sets (joinName scope m.name) m.fields +
      (m.messages.map (flagsChange symbols sets source (joinName scope m.name))).sum := by
  rw [sum_flagsChange, flagsChange, enumsIn_eq, fieldsIn_eq, fieldsChange, allEnumsIn_eq, allFieldsIn_eq]
  simp only [List.map_append, List.sum_append, List.map_map, Function.comp_def]
  abel

theorem flagsChange_push (m : Message) (x : Element) :
    (m.push x).flagsChange symbols sets source scope = m.flagsChange symbols sets source scope +
      x.change source symbols sets (joinName scope m.name) := by
  rw [flagsChange_eq, flagsChange_eq]
  cases x with
  | close => exact (add_zero _).symm
  | skip => exact (add_zero _).symm
  | nested name position => exact (add_zero _).symm
  | setting s => exact (add_zero _).symm
  | enum e =>
      simp only [Message.push, Element.change, List.map_append, List.sum_append, List.map_singleton,
        List.sum_singleton]
      abel
  | oneof name fs =>
      simp only [Message.push, Element.change, fieldsChange_append]
      abel
  | field f =>
      simp only [Message.push, Element.change, fieldsChange_append]
      simp only [fieldsChange, List.map_singleton, List.sum_singleton]
      abel

theorem flagsChange_pushMessage (m inner : Message) :
    (m.pushMessage inner).flagsChange symbols sets source scope
      = m.flagsChange symbols sets source scope +
        inner.flagsChange symbols sets source (joinName scope m.name) := by
  rw [flagsChange_eq, flagsChange_eq symbols sets scope m]
  simp only [Message.pushMessage, List.map_append, List.sum_append, List.map_singleton, List.sum_singleton]
  abel

-- ── Bodies ───────────────────────────────────────────────────────────────────────

/-- What follows an element of a message. -/
def readRest (source : List Char) (m : Message) : Element → Reader Message
  | .close                => pure m
  | .nested name position =>
    readBody source { name, position } >>= fun inner => readBody source (m.pushMessage inner)
  | x                     => readBody source (m.push x)

/-- A body is an element and what follows it. -/
theorem readBody_bind (source : List Char) (m : Message) :
    readBody source m = readElement source >>= readRest source m := by
  funext s
  rw [readBody_eq]
  cases hx : readElement source s with
  | error e =>
      show _ = (readElement source s >>= fun p => _)
      rw [hx]
      rfl
  | ok x =>
      obtain ⟨x, s'⟩ := x
      rw [bind_ok hx]
      cases x <;> rfl

/-- Whether an element closes the message or opens a nested one. -/
def Element.shape : Element → Element
  | .close         => .close
  | .nested name _ => .nested name {}
  | _              => .skip

/-- Elements of the same shape both close the message, both open a nested one, or neither does. -/
theorem Element.shape_cases {x x' : Element} (h : x.shape = x'.shape) :
    (x = .close ∧ x' = .close) ∨ (∃ name p p', x = .nested name p ∧ x' = .nested name p') ∨
      (x.shape = .skip ∧ x'.shape = .skip) := by
  cases x with
  | close =>
      cases x' with
      | close => exact .inl ⟨rfl, rfl⟩
      | _ => cases h
  | nested name p =>
      cases x' with
      | nested name' p' => cases h; exact .inr (.inl ⟨name, p, p', rfl, rfl⟩)
      | _ => cases h
  | _ => exact .inr (.inr ⟨rfl, h.symm⟩)

/-- An element that neither closes a message nor opens a nested one is added. -/
theorem readRest_of_shape {x : Element} (h : x.shape = .skip) (source : List Char) (m : Message) :
    readRest source m x = readBody source (m.push x) := by
  cases x with
  | close => cases h
  | nested => cases h
  | _ => rfl

/-- The body of a message is read: it is closed; an element is added and the rest is read; or the body of a nested
    message is read, the message is added and the rest is read. -/
inductive ReadsBody (source : List Char) : Message → Stream → Message → Stream → Prop where
  | close {m : Message} {s s' : Stream} (element : readElement source s = .ok (.close, s')) : ReadsBody source m s m s'
  | push {m m' : Message} {s s₁ s' : Stream} {x : Element} (element : readElement source s = .ok (x, s₁))
      (added : x.shape = .skip) (rest : ReadsBody source (m.push x) s₁ m' s') : ReadsBody source m s m' s'
  | nested {m inner m' : Message} {s s₁ s₂ s' : Stream} {name : String} {position : Position}
      (element : readElement source s = .ok (.nested name position, s₁))
      (inside : ReadsBody source { name, position } s₁ inner s₂)
      (rest : ReadsBody source (m.pushMessage inner) s₂ m' s') : ReadsBody source m s m' s'

/-- The reader of bodies reads just these. A nested message makes it call itself on what its head has left: the
    induction is on the number of the tokens that are left. -/
theorem readBody_eq_ok_iff {m m' : Message} {s s' : Stream} :
    readBody source m s = .ok (m', s') ↔ ReadsBody source m s m' s' := by
  constructor
  · intro h
    induction hn : s.size using Nat.strong_induction_on generalizing s s' m m' with
    | _ n ih =>
    rw [readBody_bind] at h
    obtain ⟨x, s₁, h1, h2⟩ := exists_of_bind h
    have hlt : s₁.size < n := hn ▸ takes_readElement source h1
    have hpush (hx : x.shape = .skip) : ReadsBody source m s m' s' := by
      rw [readRest_of_shape hx] at h2
      exact .push h1 hx (ih _ hlt h2 rfl)
    cases x with
    | close => cases h2; exact .close h1
    | nested name position =>
        obtain ⟨inner, s₂, h3, h4⟩ := exists_of_bind h2
        have hlt₂ : s₂.size < s₁.size := takes_readBody source _ h3
        exact .nested h1 (ih _ hlt h3 rfl) (ih _ (hlt₂.trans hlt) h4 rfl)
    | _ => exact hpush rfl
  · intro h
    induction h with
    | close element => rw [readBody_bind, bind_ok element]; rfl
    | push element added _ ih => rw [readBody_bind, bind_ok element, readRest_of_shape added, ih]
    | nested element _ _ ihInside ihRest => rw [readBody_bind, bind_ok element, readRest, bind_ok ihInside, ihRest]

/-- Lowering does not change whether an element closes a message or opens a nested one. -/
theorem Element.Lowered.shape {message : String} {x y : Element} (h : x.Lowered symbols sets message y) :
    y.shape = x.shape := by
  cases h <;> rfl

/-- An empty message is lowered. -/
theorem isLowered_empty (name : String) (position position' : Position) :
    ({ name, position } : Message).IsLowered symbols sets scope { name, position := position' } :=
  isLowered_iff.mpr ⟨rfl, rfl, rfl, rfl, rfl, rfl⟩

/-- **The body of a message is read as what lowering makes of it.** -/
theorem recast_readBody {m m' : Message} {s s' : Stream} {ws : List Word} (hs : s.Holds source p ws)
    (h : readBody source m s = .ok (m', s')) :
    ∃ c, m'.flagsChange symbols sets source scope = m.flagsChange symbols sets source scope + c ∧
      Recasts source p ws s' c fun W => ∀ source' g, m.IsLowered symbols sets scope g →
        Rereads source' (readBody source' g) W (m'.IsLowered symbols sets scope) := by
  rw [readBody_eq_ok_iff] at h
  induction h generalizing ws p scope with
  | @close m s s' element =>
      have helement := recast_readElement symbols sets (joinName scope m.name) hs element
      refine ⟨0, (add_zero _).symm, helement.mono fun W hW source' g hg => ?_⟩
      rw [readBody_bind]
      intro q t us hq ht
      obtain ⟨y, t', hy, ht', hrel⟩ := hW source' hq ht
      cases hrel
      exact ⟨g, t', bind_ok hy, ht', hg⟩
  | @push m m' s s₁ s' x element added _ ih =>
      have helement := recast_readElement symbols sets (joinName scope m.name) hs element
      obtain ⟨d, hd, hrecasts⟩ := helement.seq_exists fun p ws hs₁ => ih scope hs₁
      refine ⟨_, ?_, hrecasts.mono ?_⟩
      · rw [hd, flagsChange_push, add_assoc]
      · rintro _ ⟨W₁, W₂, rfl, hW₁, hW₂⟩ source' g hg
        rw [readBody_bind]
        refine (hW₁ source').bind fun y hy => ?_
        rw [readRest_of_shape (hy.shape.trans added)]
        exact hW₂ source' _ (hg.push hy)
  | @nested m inner m' s s₁ s₂ s' name position element _ _ ihInside ihRest =>
      have helement := recast_readElement symbols sets (joinName scope m.name) hs element
      obtain ⟨c, hc, hinner⟩ := helement.seq_exists fun p ws hs₁ => ihInside (joinName scope m.name) hs₁
      obtain ⟨d, hd, hrecasts⟩ := hinner.seq_exists fun p ws hs₂ => ihRest scope hs₂
      have hempty : ({ name, position } : Message).flagsChange symbols sets source
          (joinName scope m.name) = 0 := rfl
      refine ⟨_, ?_, hrecasts.mono ?_⟩
      · rw [hd, flagsChange_pushMessage, hc, hempty, Element.change, zero_add, add_assoc]
      · rintro _ ⟨_, W₃, rfl, ⟨W₁, W₂, rfl, hW₁, hW₂⟩, hW₃⟩ source' g hg
        rw [readBody_bind, List.append_assoc]
        refine (hW₁ source').bind fun y hy => ?_
        cases hy
        refine (hW₂ source' _ (isLowered_empty ..)).bind fun inner' hinner' => ?_
        exact hW₃ source' _ (hg.pushMessage hinner')

/-- **A message is read as what lowering makes of it.** -/
theorem recast_read {m : Message} {s s' : Stream} {ws : List Word} (hs : s.Holds source p ws)
    (h : read source s = .ok (m, s')) :
    Recasts source p ws s' (m.flagsChange symbols sets source scope) fun W => ∀ source',
      Rereads source' (read source') W (m.IsLowered symbols sets scope) := by
  obtain ⟨⟨name, position⟩, s₁, h1, h2⟩ := exists_of_bind h
  have hempty : ({ name, position } : Message).flagsChange symbols sets source scope = 0 := rfl
  have hhead := Recasts.of_closes closes_readHead (fun _ _ => replays_readHead) hs h1
  obtain ⟨d, hd, hrecasts⟩ := hhead.seq_exists fun p ws hs₁ => recast_readBody symbols sets scope hs₁ h2
  rw [hempty] at hd
  rw [hd]
  refine hrecasts.mono ?_
  rintro _ ⟨W₁, W₂, rfl, hW₁, hW₂⟩ source'
  refine (hW₁ source').bind ?_
  rintro ⟨_, position'⟩ rfl
  exact hW₂ source' _ (isLowered_empty ..)

end Message

end FlagSchema
