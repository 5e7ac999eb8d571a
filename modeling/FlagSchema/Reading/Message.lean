import FlagSchema.Reading.Enum
import FlagSchema.Reading.Field

/-!
# Reading messages

A message is a sequence of elements up to a closing brace. An element is read without regard to what the
message already holds; only a nested message makes the reader call itself.

* **`Message.Element`**, **`Message.readElement`**: one element.
* **`Message.readBody`**: the elements up to the closing brace, added to a message.
* **`Message.read`**: a message, after its keyword.
-/

namespace FlagSchema

open Reader

namespace Message

/-- One element of the body of a message. -/
inductive Element where
  /-- The closing brace of the message. -/
  | close
  /-- A statement that declares nothing here. -/
  | skip
  /-- The head of a nested message, up to its opening brace. -/
  | nested (name : String) (position : Position)
  | enum (e : EnumDef)
  | setting (s : Setting)
  | oneof (name : String) (fields : List Field)
  | field (f : Field)

/-- A message with one more element; a nested message is added when its body has been read. -/
def push (m : Message) : Element → Message
  | .enum e         => { m with enums := m.enums ++ [e] }
  | .setting s      => { m with settings := m.settings ++ [s] }
  | .oneof name fs  => { m with fields := m.fields ++ fs, oneofs := m.oneofs ++ [name] }
  | .field f        => { m with fields := m.fields ++ [f] }
  | .close | .skip | .nested _ _ => m

/-- A message with one more message nested in it. -/
def pushMessage (m inner : Message) : Message :=
  { m with messages := m.messages ++ [inner] }

-- ── Choices ──────────────────────────────────────────────────────────────────────

/-- One statement of a choice, or its closing brace. -/
def oneofStep (source : List Char) (name : String) (fields : List Field) :
    Reader (List Field ⊕ List Field) := do
  match ← peek? with
  | some (.symbol c) =>
    if c = '\x7d' then
      let _ ← next .fieldType
      pure (.inr fields)
    else if c = ';' then
      let _ ← next .fieldType
      pure (.inl fields)
    else refuse .fieldType
  | some (.ident word) =>
    if word = "option" then
      let _ ← Setting.readStatement source
      pure (.inl fields)
    else
      let field ← Field.read source (some name)
      pure (.inl (fields ++ [field]))
  | _ => refuse .fieldType

theorem takes_oneofStep (source : List Char) (name : String) (fields : List Field) :
    Takes 1 (oneofStep source name fields) := by
  refine .bind_right .peek? fun kind => ?_
  split
  · split
    · exact .bind_left (.next _) fun _ => .pure _
    · split
      · exact .bind_left (.next _) fun _ => .pure _
      · exact .refuse _ _
  · split
    · exact .bind_left (Setting.takes_readStatement _) fun _ => .pure _
    · exact .bind_left (Field.takes_read _ _) fun _ => .pure _
  · exact .refuse _ _

/-- A choice, after its keyword. -/
def readOneof (source : List Char) : Reader Element := do
  let (name, _) ← Reader.name .oneofName
  let _ ← symbol '\x7b'
  let fields ← iterate (oneofStep source name) (.of_takes (takes_oneofStep source name)) []
  pure (.oneof name fields)

theorem takes_readOneof (source : List Char) : Takes 1 (readOneof source) :=
  .bind_left (.name _) fun x =>
    .bind_right ((Takes.symbol _).mono (Nat.zero_le _)) fun _ =>
      .bind_right (.iterate (fun b => (takes_oneofStep source x.1 b).mono (Nat.zero_le _)) _)
        fun _ => .pure _

-- ── Elements ─────────────────────────────────────────────────────────────────────

/-- The name of a message and its opening brace. -/
def readHead : Reader (String × Position) := do
  let (name, token) ← Reader.name .messageName
  let _ ← symbol '\x7b'
  pure (name, token.position)

theorem takes_readHead : Takes 1 readHead :=
  .bind_left (.name _) fun _ => .bind_right ((Takes.symbol _).mono (Nat.zero_le _)) fun _ => .pure _

/-- The element that a word starts. -/
def readNamed (source : List Char) (word : String) : Reader Element := do
  if word = "message" then
    let _ ← next .messageElement
    let (name, position) ← readHead
    pure (.nested name position)
  else if word = "enum" then
    let keyword ← next .messageElement
    let e ← EnumDef.read source keyword
    pure (.enum e)
  else if word = "option" then
    let s ← Setting.readStatement source
    pure (.setting s)
  else if word = "oneof" then
    let _ ← next .messageElement
    readOneof source
  else if word = "reserved" ∨ word = "extensions" then
    let _ ← next .messageElement
    let _ ← skipPast ';'
    pure .skip
  else if word = "extend" then
    let _ ← next .messageElement
    skipBlock
    pure .skip
  else
    let f ← Field.read source none
    pure (.field f)

theorem takes_readNamed (source : List Char) (word : String) : Takes 1 (readNamed source word) := by
  unfold readNamed
  split
  · exact .bind_left (.next _) fun _ =>
      .bind_right (takes_readHead.mono (Nat.zero_le _)) fun _ => .pure _
  split
  · exact .bind_left (.next _) fun _ =>
      .bind_right ((EnumDef.takes_read _ _).mono (Nat.zero_le _)) fun _ => .pure _
  split
  · exact .bind_left (Setting.takes_readStatement _) fun _ => .pure _
  split
  · exact .bind_left (.next _) fun _ => (takes_readOneof _).mono (Nat.zero_le _)
  split
  · exact .bind_left (.next _) fun _ =>
      .bind_right ((takes_skipPast _).mono (Nat.zero_le _)) fun _ => .pure _
  split
  · exact .bind_left (.next _) fun _ =>
      .bind_right (takes_skipBlock.mono (Nat.zero_le _)) fun _ => .pure _
  · exact .bind_left (Field.takes_read _ _) fun _ => .pure _

/-- One element of the body of a message. Comments outside enums are forgotten. -/
def readElement (source : List Char) : Reader Element := do
  dropHeld
  match ← peek? with
  | none => refuse (.symbol '\x7d')
  | some (.symbol c) =>
    if c = '\x7d' then
      let _ ← next .messageElement
      pure .close
    else if c = ';' then
      let _ ← next .messageElement
      pure .skip
    else refuse .messageElement
  | some (.ident word) => readNamed source word
  | _ => refuse .messageElement

theorem takes_readElement (source : List Char) : Takes 1 (readElement source) := by
  refine .bind_right .dropHeld fun _ => .bind_right .peek? fun kind => ?_
  split
  · exact .refuse _ _
  · split
    · exact .bind_left (.next _) fun _ => .pure _
    · split
      · exact .bind_left (.next _) fun _ => .pure _
      · exact .refuse _ _
  · exact takes_readNamed _ _
  · exact .refuse _ _

-- ── Bodies ───────────────────────────────────────────────────────────────────────

/-- The elements up to the closing brace, added to a message, with the proof that they are taken. -/
def readBodyWithin (source : List Char) (m : Message) (s : Stream) :
    Except SchemaError { r : Message × Stream // r.2.size < s.size } :=
  match h : readElement source s with
  | .error e        => .error e
  | .ok (.close, s') => .ok ⟨(m, s'), takes_readElement source h⟩
  | .ok (.nested name position, s') =>
    have h1 : s'.size < s.size := takes_readElement source h
    match readBodyWithin source { name, position } s' with
    | .error e => .error e
    | .ok ⟨(inner, s''), (h2 : s''.size < s'.size)⟩ =>
      match readBodyWithin source (m.pushMessage inner) s'' with
      | .error e    => .error e
      | .ok ⟨r, h3⟩ => .ok ⟨r, by omega⟩
  | .ok (element, s') =>
    have h1 : s'.size < s.size := takes_readElement source h
    match readBodyWithin source (m.push element) s' with
    | .error e    => .error e
    | .ok ⟨r, h2⟩ => .ok ⟨r, by omega⟩
termination_by s.size

/-- The elements up to the closing brace, added to a message. -/
def readBody (source : List Char) (m : Message) : Reader Message := fun s =>
  (readBodyWithin source m s).map Subtype.val

theorem takes_readBody (source : List Char) (m : Message) : Takes 1 (readBody source m) := by
  intro s a s' h
  unfold readBody at h
  cases hr : readBodyWithin source m s with
  | error e => simp [hr, Except.map] at h
  | ok r =>
    simp only [hr, Except.map, Except.ok.injEq] at h
    have := r.property
    rw [h] at this
    exact this

/-- How a body is read: element by element. -/
theorem readBody_eq (source : List Char) (m : Message) (s : Stream) :
    readBody source m s =
      match readElement source s with
      | .error e                        => .error e
      | .ok (.close, s')                => .ok (m, s')
      | .ok (.nested name position, s') =>
        (readBody source { name, position } s').bind fun r =>
          readBody source (m.pushMessage r.1) r.2
      | .ok (element, s')               => readBody source (m.push element) s' := by
  unfold readBody
  rw [readBodyWithin]
  split
  · next h => simp [h, Except.map]
  · next h => simp [h, Except.map]
  · next name position s' h =>
    simp only [h]
    cases readBodyWithin source { name, position } s' with
    | error e => rfl
    | ok r =>
      simp only [Except.map, Except.bind]
      cases readBodyWithin source (m.pushMessage r.1.1) r.1.2 <;> rfl
  · next element s' hclose hnested h =>
    simp only [h]
    cases element with
    | close => exact absurd rfl hclose
    | nested name position => exact absurd rfl (hnested name position)
    | _ => cases readBodyWithin source _ s' <;> rfl

/-- A message, after its keyword. -/
def read (source : List Char) : Reader Message := do
  let (name, position) ← readHead
  readBody source { name, position }

theorem takes_read (source : List Char) : Takes 1 (read source) :=
  .bind_left takes_readHead fun _ => (takes_readBody _ _).mono (Nat.zero_le _)

end Message

end FlagSchema
