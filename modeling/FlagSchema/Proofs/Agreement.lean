import FlagSchema.Proofs.Views
import FlagSchema.Reading.Enum
import FlagSchema.Reading.Field

/-!
# Options, enums and fields on the same kinds of tokens

Each reader of an option, an enum or a field shows the same wherever comments and line breaks fall. What it
reads is seen by its gist; the source, from which only the text of an aggregate is cut, may be another.

* **`Constant.agrees_read`**, **`Setting.agrees_readStatement`**, **`Setting.agrees_readBracketed`**: options.
* **`EnumDef.agrees_read`**: an enum. Its comments are collected without being looked at.
* **`Field.agrees_read`**: a field.
-/

namespace FlagSchema

open Token Reader

variable {source source' : List Char}

-- ── Passing over tokens ──────────────────────────────────────────────────────────

theorem agrees_skipPast (c : Char) : Agrees Token.kind (skipPast c) (skipPast c) := by
  refine .iterate unseen (fun u u' _ => (Agrees.next _).bind fun t t' h => .pure ?_) rfl
  rw [h]
  split
  · exact congrArg Sum.inr h
  · rfl

theorem agrees_braceStep (depth : Nat) : Agrees (Sum.map id Token.kind) (braceStep depth) (braceStep depth) := by
  refine (Agrees.next _).bind fun t t' h => .pure ?_
  rw [h]
  split
  · rfl
  split
  · cases depth with
    | zero => exact congrArg Sum.inr h
    | succ depth => rfl
  · rfl

theorem agrees_skipBraces : Agrees Token.kind skipBraces skipBraces := by
  refine .iterate id (fun depth _ h => ?_) rfl
  cases h
  exact agrees_braceStep depth

theorem agrees_skipBlock : Agrees unseen skipBlock skipBlock :=
  (agrees_skipPast _).bind fun _ _ _ => agrees_skipBraces.bind fun _ _ _ => .pure rfl

-- ── Numbers and strings ──────────────────────────────────────────────────────────

theorem agrees_readInteger (what : Expectation) : Agrees Prod.fst (readInteger what) (readInteger what) := by
  refine (Agrees.next _).bind fun t t' h => ?_
  rw [h]
  cases t'.kind with
  | int spelling =>
      dsimp only
      cases integerValue? spelling with
      | none => exact .fail rfl
      | some n => exact .pure rfl
  | _ => exact .fail rfl

theorem agrees_readNumber : Agrees Prod.fst readNumber readNumber := by
  refine (Agrees.next _).bind fun t t' h => ?_
  rw [h]
  cases t'.kind with
  | int spelling =>
      dsimp only
      cases integerValue? spelling with
      | none => exact .fail rfl
      | some n => exact .pure rfl
  | float spelling =>
      dsimp only
      cases floatValue? spelling with
      | none => exact .fail rfl
      | some x => exact .pure rfl
  | ident name =>
      dsimp only
      cases namedNumber? name with
      | none => exact .fail rfl
      | some x => exact .pure rfl
  | _ => exact .fail rfl

theorem agrees_readString (what : Expectation) : Agrees Prod.fst (readString what) (readString what) := by
  refine (Agrees.require _ _).bind_formed fun value t t' _ => ?_
  refine .iterate Prod.fst (fun read read' h => .bind_accept ?_ fun more _ _ _ => ?_) rfl
  · exact .pure (congrArg Sum.inr h)
  · exact .pure (congrArg (fun value => Sum.inl (value ++ more)) h)

-- ── Options ──────────────────────────────────────────────────────────────────────

/-- The value of an option, but for the text of an aggregate. -/
theorem Constant.agrees_read :
    Agrees (Constant.gist ∘ Prod.fst) (Constant.read source) (Constant.read source') := by
  refine Agrees.peek?.bind_id fun kind => ?_
  have hnumber : Agrees (Constant.gist ∘ Prod.fst) readNumber readNumber := agrees_readNumber.coarsen _
  cases kind with
  | none => exact .refuse _
  | some kind =>
      cases kind with
      | str value => exact (agrees_readString _).bind_fst fun _ _ _ => .pure rfl
      | ident name => exact (Agrees.next _).bind fun _ _ _ => .pure rfl
      | int spelling => exact hnumber
      | float spelling => exact hnumber
      | comment text => exact .refuse _
      | symbol c =>
          refine .ite ?_ (.ite ?_ (.ite ?_ (.refuse _)))
          · exact (Agrees.next _).bind fun _ _ _ => agrees_skipBraces.bind fun _ _ _ => .pure rfl
          · exact (Agrees.next _).bind fun _ _ _ => agrees_readNumber.bind_fst fun _ _ _ => .pure rfl
          · exact (Agrees.next _).bind fun _ _ _ => hnumber

theorem agrees_readBareName : Agrees id readBareName readBareName := by
  refine (Agrees.acceptSymbol _).bind_id fun found => .ite ?_ ?_
  · exact (Agrees.name _).bind_formed fun _ _ _ _ => (Agrees.symbol _).bind fun _ _ _ => .pure rfl
  · exact (Agrees.name _).bind_formed fun _ _ _ _ => .pure rfl

theorem agrees_readOptionName : Agrees id readOptionName readOptionName := by
  refine agrees_readBareName.bind_id fun bare => ?_
  refine .iterate id (fun name _ h => .bind_accept ?_ fun sub _ _ _ => ?_) rfl
  · exact .pure (congrArg Sum.inr h)
  · exact .pure (congrArg (fun name => Sum.inl (name ++ sub)) h)

namespace Setting

theorem agrees_readStatement : Agrees gist (readStatement source) (readStatement source') := by
  refine (Agrees.next _).bind fun keyword keyword' _ => agrees_readOptionName.bind_id fun name => ?_
  refine (Agrees.symbol _).bind fun _ _ _ => Constant.agrees_read.bind fun value value' hvalue => ?_
  refine (Agrees.symbol _).bind fun _ _ _ => (Agrees.trailing _ _).bind fun _ _ _ => .pure ?_
  exact congrArg (fun c => Setting.mk name c {} none) hvalue

theorem agrees_readEntry : Agrees gist (readEntry source) (readEntry source') := by
  refine Agrees.nextStart.bind fun _ _ _ => agrees_readOptionName.bind_id fun name => ?_
  refine (Agrees.symbol _).bind fun _ _ _ => Constant.agrees_read.bind fun value value' hvalue => .pure ?_
  exact congrArg (fun c => Setting.mk name c {} none) hvalue

/-- A list of options with the span of its brackets, seen by its gist and by whether there are brackets. -/
def bracketed (x : List Setting × Option Span) : List Setting × Option Span :=
  (x.1.map gist, x.2.map fun _ => {})

theorem agrees_readBracketed : Agrees bracketed (readBracketed source) (readBracketed source') := by
  refine .bind_accept (.pure rfl) fun _ opening opening' _ => ?_
  have hentries : Agrees (List.map gist)
      (iterate (entryStep source) (.of_takes (takes_entryStep source)) [])
      (iterate (entryStep source') (.of_takes (takes_entryStep source')) []) := by
    refine .iterate (List.map gist) (fun read read' hread => ?_) rfl
    refine agrees_readEntry.bind fun entry entry' hentry => ?_
    have hmore : (read ++ [entry]).map gist = (read' ++ [entry']).map gist := map_concat hread hentry
    exact (Agrees.acceptSymbol _).bind_id fun found =>
      .ite (.pure (congrArg Sum.inl hmore)) (.pure (congrArg Sum.inr hmore))
  refine hentries.bind fun settings settings' hsettings => (Agrees.symbol _).bind fun _ _ _ => .pure ?_
  exact congrArg (·, some ({} : Span)) hsettings

end Setting

-- ── Enums ────────────────────────────────────────────────────────────────────────

theorem EnumValue.agrees_read : Agrees gist (EnumValue.read source) (EnumValue.read source') := by
  refine (Agrees.name _).bind_formed fun name _ _ _ => Agrees.takeHeld.bind fun _ _ _ => ?_
  refine (Agrees.symbol _).bind fun _ _ _ => (Agrees.acceptSymbol _).bind_id fun negative => ?_
  refine (agrees_readInteger _).bind_fst fun number _ _ => ?_
  refine Setting.agrees_readBracketed.bind fun settings settings' h => (Agrees.symbol _).bind fun _ _ _ => ?_
  refine (Agrees.trailing _ _).bind fun _ _ _ => .pure ?_
  exact congrArg (fun x : List Setting × Option Span =>
    EnumValue.mk name {} {} (if negative then -(number : Int) else number) x.1 x.2 [] none) h

namespace EnumDef

/-- What has been read of an enum, seen by its gist. -/
def Body.gist (b : Body) : List Setting × List EnumValue :=
  (b.settings.map Setting.gist, b.values.map EnumValue.gist)

theorem agrees_bodyStep {body body' : Body} (h : body.gist = body'.gist) :
    Agrees (Sum.map Body.gist (Body.gist ∘ Prod.fst)) (bodyStep source body) (bodyStep source' body') := by
  obtain ⟨hsettings, hvalues⟩ := Prod.mk.inj h
  refine Agrees.peek?.bind_id fun kind => ?_
  cases kind with
  | none => exact .refuse _
  | some kind =>
      cases kind with
      | symbol c =>
          refine .ite ?_ (.ite ?_ (.refuse _))
          · exact (Agrees.next _).bind fun _ _ _ => .pure (congrArg Sum.inr h)
          · exact (Agrees.next _).bind fun _ _ _ => .pure (congrArg Sum.inl h)
      | ident word =>
          refine (Agrees.symbolAhead _ _).bind_id fun isValue => .ite ?_ (.ite ?_ ?_)
          · exact Setting.agrees_readStatement.bind fun _ _ hx =>
              .pure (congrArg Sum.inl (Prod.ext (map_concat hsettings hx) hvalues))
          · exact (Agrees.next _).bind fun _ _ _ => (agrees_skipPast _).bind fun _ _ _ =>
              .pure (congrArg Sum.inl h)
          · exact EnumValue.agrees_read.bind fun _ _ hv =>
              .pure (congrArg Sum.inl (Prod.ext hsettings (map_concat hvalues hv)))
      | _ => exact .refuse _

theorem agrees_read (keyword keyword' : Token) :
    Agrees gist (read source keyword) (read source' keyword') := by
  refine (Agrees.name _).bind_formed fun name _ _ _ => (Agrees.symbol _).bind fun _ _ _ => ?_
  refine Agrees.dropHeld.bind fun _ _ _ => ?_
  have hbody : Agrees (Body.gist ∘ Prod.fst)
      (iterate (bodyStep source) (.of_takes (takes_bodyStep source)) {})
      (iterate (bodyStep source') (.of_takes (takes_bodyStep source')) {}) :=
    .iterate Body.gist (fun _ _ h => agrees_bodyStep h) rfl
  refine hbody.bind fun body body' h => Agrees.takeHeld.bind fun _ _ _ => .pure ?_
  exact congrArg (fun x : List Setting × List EnumValue =>
    EnumDef.mk name {} {} {} {} x.1 x.2 [] none) h

end EnumDef

-- ── Fields ───────────────────────────────────────────────────────────────────────

namespace Field

/-- The head of a field, seen by its label and the name of its type. -/
theorem agrees_readHead (inOneof : Bool) :
    Agrees (fun x => (x.1, x.2.1)) (readHead inOneof) (readHead inOneof) := by
  refine (Agrees.name _).bind_formed fun first _ _ _ => ?_
  dsimp only
  cases Label.ofName? first with
  | none => exact .pure rfl
  | some label =>
      refine (Agrees.symbolAhead _ _).bind_id fun isType => .ite (.pure rfl) ?_
      exact (Agrees.name _).bind_formed fun _ _ _ _ => .pure rfl

theorem agrees_readMap : Agrees Prod.fst readMap readMap := by
  refine (Agrees.symbol _).bind fun _ _ _ => (Agrees.name _).bind_formed fun key keyToken keyToken' hkind => ?_
  dsimp only
  cases Scalar.ofKeyword? key with
  | none => exact .fail (congrArg (SchemaError.expected {} _) hkind)
  | some key =>
      refine (Agrees.symbol _).bind fun _ _ _ => (Agrees.name _).bind_formed fun value _ _ _ => ?_
      exact (Agrees.symbol _).bind fun _ _ _ => .pure rfl

theorem agrees_readType (type : String) (token token' : Token) :
    Agrees Prod.fst (readType type token) (readType type token') := by
  refine .ite (.fail rfl) ?_
  exact (Agrees.symbolAhead _ _).bind_id fun isMap => .ite agrees_readMap (.pure rfl)

theorem agrees_readNumber : Agrees id Field.readNumber Field.readNumber :=
  (agrees_readInteger _).bind_fst fun _ _ _ => .ite (.pure rfl) (.fail rfl)

theorem agrees_read (oneof : Option String) : Agrees gist (read source oneof) (read source' oneof) := by
  refine (agrees_readHead _).bind ?_
  rintro ⟨label, typeName, typeToken⟩ ⟨_, _, typeToken'⟩ h
  cases h
  refine (agrees_readType _ _ _).bind_fst fun type _ _ => (Agrees.name _).bind_formed fun name _ _ _ => ?_
  refine (Agrees.symbol _).bind fun _ _ _ => agrees_readNumber.bind_id fun number => ?_
  refine Setting.agrees_readBracketed.bind fun settings settings' h => (Agrees.symbol _).bind fun _ _ _ => .pure ?_
  exact congrArg (fun xs => Field.mk name {} label type number xs oneof {} none) (Prod.mk.inj h).1

end Field

end FlagSchema
