import FlagSchema.Proofs.Statements
import FlagSchema.Proofs.Views

/-!
# Reading step by step

A schema is read statement by statement. A message may be read element by element: between two steps some messages
are open, each nested in the next. Steps come to the same as reading, and they look at no more than the tokens that
they take.

* **`Schema.Progress`**: what has been read: whole statements, and the messages that are open.
* **`Schema.Progress.advance`**, **`Schema.Progress.advances`**: a step, and steps in a row.
* **`Schema.Progress.finish`**: what is left to read; **`Schema.Progress.finish_advances`**: steps do not change
  what comes of it.
* **`Schema.Progress.exists_advances`**: reading comes to an end in steps.
* **`Schema.Progress.copies_advances`**: steps in a row on copied words.
-/

namespace FlagSchema

open Token Reader

variable {source source' : List Char}

/-- A reader that takes a token finds one. -/
theorem Reader.Takes.tokens_ne_nil {α : Type} {r : Reader α} {s s' : Stream} {x : α} (h : Takes 1 r)
    (hr : r s = .ok (x, s')) : s.tokens ≠ [] := by
  intro hnil
  have hsize := h hr
  rw [Stream.size_eq_length_tokens s, hnil] at hsize
  exact absurd hsize (Nat.not_succ_le_zero _)

namespace Schema

/-- What has been read of a schema: whole statements, and the messages that are open, the innermost first. -/
structure Progress where
  schema : Schema := {}
  opened : List Message := []

namespace Progress

variable {a b : Progress} {s s' : Stream}

-- ── Steps ────────────────────────────────────────────────────────────────────────

/-- The innermost message is closed. -/
def close (g : Schema) (m : Message) : List Message → Progress
  | []           => ⟨g.push (.message m), []⟩
  | parent :: ms => ⟨g, parent.pushMessage m :: ms⟩

/-- The innermost message has one more element. -/
def element (g : Schema) (m : Message) (ms : List Message) : Message.Element → Progress
  | .close                => close g m ms
  | .nested name position => ⟨g, { name, position } :: m :: ms⟩
  | x                     => ⟨g, m.push x :: ms⟩

/-- A statement that is no message. Of a message, the opening alone. -/
def advanceStatement (source : List Char) (g : Schema) : Reader Progress := do
  if (← peek?) = some (.ident "message") then
    let _ ← next .topLevelStatement
    let (name, position) ← Message.readHead
    pure ⟨g, [{ name, position }]⟩
  else
    let x ← readItem source
    pure ⟨g.push x, []⟩

/-- A step: a statement, or an element of the innermost message that is open. -/
def advance (source : List Char) (a : Progress) : Reader Progress :=
  match a.opened with
  | []      => dropHeld >>= fun _ => advanceStatement source a.schema
  | m :: ms => Message.readElement source >>= fun x => pure (element a.schema m ms x)

/-- So many steps in a row. -/
def advances (source : List Char) : Nat → Progress → Reader Progress
  | 0, a     => pure a
  | n + 1, a => advance source a >>= advances source n

theorem takes_advanceStatement (source : List Char) (g : Schema) : Takes 1 (advanceStatement source g) := by
  refine .bind_right .peek? fun kind => ?_
  split
  · exact .bind_left (.next _) fun _ =>
      .bind_right (Message.takes_readHead.mono (Nat.zero_le _)) fun _ => .pure _
  · exact .bind_left (takes_readItem source) fun _ => .pure _

theorem takes_advance (source : List Char) (a : Progress) : Takes 1 (advance source a) := by
  unfold advance
  split
  · exact .bind_right .dropHeld fun _ => takes_advanceStatement ..
  · exact .bind_left (Message.takes_readElement source) fun _ => .pure _

/-- Every step takes a token. -/
theorem takes_advances (source : List Char) (n : Nat) (a : Progress) : Takes n (advances source n a) := by
  induction n generalizing a with
  | zero => exact .pure _
  | succ n ih => exact ((takes_advance source a).bind ih).mono (Nat.add_comm ..).le

-- ── What is left to read ─────────────────────────────────────────────────────────

/-- The rest of a schema with a message open inside others. -/
def finishWithin (source : List Char) (g : Schema) : List Message → Message → Reader Schema
  | [], m           => Message.readBody source m >>= fun m =>
    iterate (step source) (proceeds_step source) (g.push (.message m))
  | parent :: ms, m => Message.readBody source m >>= fun m => finishWithin source g ms (parent.pushMessage m)

/-- The rest of a schema, from where its reading has come. -/
def finish (source : List Char) (a : Progress) : Reader Schema :=
  match a.opened with
  | []      => iterate (step source) (proceeds_step source) a.schema
  | m :: ms => finishWithin source a.schema ms m

/-- A source is what is left to read in front of it. -/
theorem parse_eq_finish {source : String} {ts : List Token} (h : tokenize source = .ok ts) :
    parse source = (finish source.toList {} (Stream.ofTokens ts)).map Prod.fst := by
  rw [parse, h]
  rfl

/-- At the end of the input nothing is left to read. -/
theorem finish_nil (g : Schema) (hs : s.tokens = []) :
    finish source ⟨g, []⟩ s = .ok (g, { s with held := [] }) := by
  show iterate (step source) (proceeds_step source) g s = _
  rw [iterate_eq, bind_ok (step_of_nil source g hs)]
  rfl

/-- In front of a token, a statement is read and then the rest. -/
theorem finish_statement (g : Schema) (hs : s.tokens ≠ []) :
    finish source ⟨g, []⟩ s =
      (dropHeld >>= fun _ => readItem source >>= fun x => finish source ⟨g.push x, []⟩) s := by
  have hitems : s.items.isEmpty ≠ true := fun h =>
    hs (List.map_eq_nil_iff.mpr (List.isEmpty_iff.mp h))
  have hstep : step source g s =
      (readItem source >>= fun x => pure (.inl (g.push x))) { s with held := [] } := by
    show (if s.items.isEmpty = true then _ else _ : Reader (Schema ⊕ Schema)) { s with held := [] } = _
    rw [if_neg hitems, readStatement_eq, bind_assoc]
    rfl
  show iterate (step source) (proceeds_step source) g s =
    (readItem source >>= fun x => finish source ⟨g.push x, []⟩) { s with held := [] }
  rw [iterate_eq]
  cases hx : readItem source { s with held := [] } with
  | error e =>
      rw [bind_error hx] at hstep
      rw [bind_error hstep, bind_error hx]
  | ok x =>
      rw [bind_ok hx] at hstep
      rw [bind_ok hstep, bind_ok hx]
      rfl

theorem finish_cons (g : Schema) (m : Message) (ms : List Message) :
    finish source ⟨g, m :: ms⟩ = Message.readBody source m >>= fun m => finish source (close g m ms) := by
  cases ms <;> rfl

/-- Reading a statement and then the rest is a step and then the rest. -/
theorem readItem_finish (g : Schema) :
    (readItem source >>= fun x => finish source ⟨g.push x, []⟩) =
      advanceStatement source g >>= finish source := by
  rw [advanceStatement, bind_assoc]
  funext s
  by_cases hkind : s.kindAt? 0 = some (.ident "message")
  · have hpeek : peek? s = .ok (some (.ident "message"), s) := by rw [← hkind]; rfl
    rw [readItem, bind_assoc, bind_ok hpeek, bind_ok hpeek, if_pos rfl]
    dsimp only
    rw [readItemNamed, if_neg (by decide), if_neg (by decide), if_neg (by decide), if_neg (by decide), if_pos rfl,
      Message.read]
    simp only [bind_assoc, pure_bind, finish_cons, close]
  · have hpeek : peek? s = .ok (s.kindAt? 0, s) := rfl
    rw [bind_ok hpeek, if_neg hkind]
    simp only [bind_assoc, pure_bind]

/-- Inside a message, an element is read and then the rest. -/
theorem finish_element (g : Schema) (m : Message) (ms : List Message) :
    finish source ⟨g, m :: ms⟩ = advance source ⟨g, m :: ms⟩ >>= finish source := by
  rw [finish_cons, Message.readBody_bind, advance]
  simp only [bind_assoc, pure_bind]
  congr 1
  funext x
  cases x with
  | close => exact pure_bind ..
  | nested name position =>
      rw [Message.readRest, bind_assoc]
      simp only [element, finish_cons, close]
  | skip => exact (finish_cons ..).symm
  | enum e => exact (finish_cons ..).symm
  | setting x => exact (finish_cons ..).symm
  | oneof name fs => exact (finish_cons ..).symm
  | field f => exact (finish_cons ..).symm

/-- **What is left to read is a step and what is left then**, but for the end of the input. -/
theorem finish_eq_advance (a : Progress) (h : a.opened ≠ [] ∨ s.tokens ≠ []) :
    finish source a s = (advance source a >>= finish source) s := by
  obtain ⟨g, opened⟩ := a
  cases opened with
  | nil =>
      rw [finish_statement g (h.resolve_left fun h => h rfl), readItem_finish, advance, bind_assoc]
  | cons m ms => rw [finish_element]

theorem finish_advance (h : advance source a s = .ok (b, s')) : finish source a s = finish source b s' := by
  rw [finish_eq_advance a (.inr ((takes_advance source a).tokens_ne_nil h)), bind_ok h]

/-- **Steps in a row do not change what comes of the rest.** -/
theorem finish_advances {n : Nat} (h : advances source n a s = .ok (b, s')) :
    finish source a s = finish source b s' := by
  induction n generalizing a s with
  | zero => cases h; rfl
  | succ n ih =>
      obtain ⟨c, s₁, h1, h2⟩ := exists_of_bind h
      exact (finish_advance h1).trans (ih h2)

/-- **Reading comes to an end in steps**: at the end of the input, or where a step fails. -/
theorem exists_advances (source : List Char) (a : Progress) (s : Stream) :
    ∃ n b s', advances source n a s = .ok (b, s') ∧
      ((b.opened = [] ∧ s'.tokens = [] ∧ ∃ s₁, finish source a s = .ok (b.schema, s₁)) ∨
        ∃ e, advance source b s' = .error e ∧ finish source a s = .error e) := by
  induction hn : s.size using Nat.strong_induction_on generalizing a s with
  | _ size ih =>
  by_cases hend : a.opened = [] ∧ s.tokens = []
  · obtain ⟨schema, opened⟩ := a
    obtain ⟨rfl, hs⟩ := hend
    exact ⟨0, _, s, rfl, .inl ⟨rfl, hs, _, finish_nil schema hs⟩⟩
  · rw [finish_eq_advance a (by tauto)]
    cases hstep : advance source a s with
    | error e => exact ⟨0, a, s, rfl, .inr ⟨e, hstep, bind_error hstep⟩⟩
    | ok x =>
        have hlt : x.2.size < s.size := takes_advance source a hstep
        obtain ⟨n, b, s', hrun, hresult⟩ := ih _ (hn ▸ hlt) x.1 x.2 rfl
        refine ⟨n + 1, b, s', (bind_ok hstep).trans hrun, ?_⟩
        rwa [bind_ok hstep]

/-- **What is read to the end is read in steps.** -/
theorem exists_advances_of_finish {g : Schema} (h : finish source a s = .ok (g, s')) :
    ∃ n s₁, advances source n a s = .ok (⟨g, []⟩, s₁) ∧ s₁.tokens = [] := by
  obtain ⟨n, b, s₁, hrun, ⟨hopened, hs₁, s₂, hfinish⟩ | ⟨e, -, hfinish⟩⟩ := exists_advances source a s
  · obtain ⟨schema, opened⟩ := b
    cases hopened
    cases hfinish.symm.trans h
    exact ⟨n, s₁, hrun, hs₁⟩
  · cases hfinish.symm.trans h

-- ── Steps on copied words ────────────────────────────────────────────────────────

/-- The same without places and comments. -/
def bare (a : Progress) : Progress := ⟨a.schema.bare, a.opened.map Message.bare⟩

/-- What says the same as whole statements is whole statements. -/
theorem exists_of_bare {g : Schema} (h : (Progress.mk g []).bare = a.bare) : ∃ g', a = ⟨g', []⟩ ∧ g.bare = g'.bare := by
  obtain ⟨schema, opened⟩ := a
  obtain ⟨hg, hopened⟩ := Progress.mk.inj h
  cases List.map_eq_nil_iff.mp hopened.symm
  exact ⟨schema, rfl, hg⟩

theorem isEmpty_opened_of_bare (h : a.bare = b.bare) : a.opened.isEmpty = b.opened.isEmpty := by
  have hopened := congrArg (fun x => x.opened.isEmpty) h
  rwa [bare, bare, List.isEmpty_map, List.isEmpty_map] at hopened

section

variable {g g' : Schema} {m m' : Message} {ms ms' : List Message}

theorem bare_cons (hg : g.bare = g'.bare) (hm : m.bare = m'.bare)
    (hms : ms.map Message.bare = ms'.map Message.bare) :
    (Progress.mk g (m :: ms)).bare = (Progress.mk g' (m' :: ms')).bare := by
  rw [bare, bare, List.map_cons, List.map_cons, hg, hm, hms]

theorem bare_close (hg : g.bare = g'.bare) (hm : m.bare = m'.bare)
    (hms : ms.map Message.bare = ms'.map Message.bare) : (close g m ms).bare = (close g' m' ms').bare := by
  cases ms with
  | nil =>
      cases List.map_eq_nil_iff.mp hms.symm
      have hitem : (Item.message m).bare = (Item.message m').bare := congrArg Item.message hm
      rw [close, close, bare, bare, bare_push, bare_push, hg, hitem]
  | cons parent ms =>
      obtain ⟨parent', ms', rfl, hparent, hms'⟩ := List.map_eq_cons_iff.mp hms.symm
      refine bare_cons hg ?_ hms'.symm
      rw [Message.bare_pushMessage, Message.bare_pushMessage, hparent, hm]

/-- What says the same before an element says the same after it. -/
theorem bare_element {x x' : Message.Element} (hg : g.bare = g'.bare) (hm : m.bare = m'.bare)
    (hms : ms.map Message.bare = ms'.map Message.bare) (hx : x.bare = x'.bare) :
    (element g m ms x).bare = (element g' m' ms' x').bare := by
  have hpush : (m.push x).bare = (m'.push x').bare := by
    rw [Message.bare_push, Message.bare_push, hm, hx]
  cases x with
  | close =>
      cases x' with
      | close => exact bare_close hg hm hms
      | _ => cases hx
  | nested name position =>
      cases x' with
      | nested name' position' =>
          cases hx
          refine bare_cons hg (Message.bare_empty ..) ?_
          rw [List.map_cons, List.map_cons, hm, hms]
      | _ => cases hx
  | _ =>
      cases x' with
      | close => cases hx
      | nested name' position' => cases hx
      | _ => exact bare_cons hg hpush hms

end

theorem copies_advanceStatement {g g' : Schema} (h : g.bare = g'.bare) :
    Copies source source' bare (advanceStatement source g) (advanceStatement source' g') := by
  refine .peek? (takes_advanceStatement source g) fun kind => .ite ?_ ?_
  · refine (Copies.next _).bind fun _ _ _ => Message.copies_readHead.bind fun x x' hname => .pure ?_
    rw [hname]
    exact bare_cons h (Message.bare_empty ..) rfl
  · refine copies_readItem.bind fun x x' hx => .pure ?_
    rw [bare, bare, bare_push, bare_push, h, hx]

/-- **A step is made again on copied words**, behind what says the same. -/
theorem copies_advance {a a' : Progress} (h : a.bare = a'.bare) :
    Copies source source' bare (advance source a) (advance source' a') := by
  obtain ⟨g, opened⟩ := a
  obtain ⟨g', opened'⟩ := a'
  obtain ⟨hg, hopened⟩ := Progress.mk.inj h
  cases opened with
  | nil =>
      cases List.map_eq_nil_iff.mp hopened.symm
      intro s b s' hs
      exact (copies_advanceStatement hg hs).dropHeld
  | cons m ms =>
      obtain ⟨m', ms', rfl, hm, hms⟩ := List.map_eq_cons_iff.mp hopened.symm
      exact Message.copies_readElement.bind fun x x' hx => .pure (bare_element hg hm.symm hms.symm hx)

/-- **So are steps in a row.** -/
theorem copies_advances {a a' : Progress} (n : Nat) (h : a.bare = a'.bare) :
    Copies source source' bare (advances source n a) (advances source' n a') := by
  induction n generalizing a a' with
  | zero => exact .pure h
  | succ n ih => exact (copies_advance h).bind fun _ _ hb => ih hb

end Progress

end Schema

end FlagSchema
