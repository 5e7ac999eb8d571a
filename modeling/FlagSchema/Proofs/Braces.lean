import FlagSchema.Proofs.FlagBodies
import FlagSchema.Proofs.Origins
import FlagSchema.Proofs.Tiling

/-!
# Between the braces of an enum

While a schema is read, the comments that are passed are held until a declaration collects them. An enum collects
those between its braces, each of them once, and leaves those of the enums before it and behind it alone: no two
enums of a schema have a part of the source between their braces in common.

* **`EnumDef.comments`**: the comments of an enum.
* **`EnumDef.Stands`**: the braces of an enum are words, and its comments are those between them.
* **`Braced`**: so do several enums, apart from one another.
* **`Reader.Finds`**: a reader gives enums that stand in the words that it takes.
* **`Schema.comments_parse`**: the comments of every enum of a schema are those between its braces.
-/

namespace FlagSchema

open Token Reader

variable {α β : Type} {source : List Char} {p : Place} {us vs ws : List Word}

-- ── Comments of enums ────────────────────────────────────────────────────────────

namespace EnumDef

/-- The comments of an enum: those behind its options, those around its values and those at its end. -/
def comments (e : EnumDef) : Multiset String :=
  (e.settings.map Setting.behind).sum + (e.values.map EnumValue.around).sum + e.dangling

/-- The comments among tokens that stand between the braces of an enum. -/
def commentsIn (e : EnumDef) (ts : List Token) : List String :=
  (ts.filter fun t => e.opening.stop ≤ t.span.start ∧ t.span.stop ≤ e.closing.start).filterMap
    fun t => t.kind.comment?

/-- Two enums are apart if the braces of one are behind those of the other. -/
def Apart (e f : EnumDef) : Prop :=
  e.closing.stop ≤ f.opening.start ∨ f.closing.stop ≤ e.opening.start

theorem Apart.symm {e f : EnumDef} (h : e.Apart f) : f.Apart e := Or.symm h

/-- The braces of an enum are words behind others, and its comments are those of the words between them. -/
structure Stands (p : Place) (e : EnumDef) (A : List Word) (O : Word) (B : List Word) (C : Word) : Prop where
  opens    : O.kind = .symbol '\x7b'
  closes   : C.kind = .symbol '\x7d'
  opening  : e.opening = (O.token (p.after (textOf A))).span
  closing  : e.closing = (C.token (p.after (textOf (A ++ O :: B)))).span
  comments : e.comments = Token.comments B

/-- An enum stands among words. -/
def StandsIn (p : Place) (ws : List Word) (e : EnumDef) : Prop :=
  ∃ A O B C D, ws = A ++ O :: (B ++ C :: D) ∧ e.Stands p A O B C

namespace StandsIn

variable {e : EnumDef}

/-- There may be words in front. -/
theorem behind (h : e.StandsIn (p.after (textOf us)) vs) : e.StandsIn p (us ++ vs) := by
  obtain ⟨A, O, B, C, D, rfl, hstands⟩ := h
  refine ⟨us ++ A, O, B, C, D, (List.append_assoc ..).symm, hstands.opens, hstands.closes, ?_, ?_,
    hstands.comments⟩
  · rw [textOf_append, Place.after_append]
    exact hstands.opening
  · rw [List.append_assoc, textOf_append, Place.after_append]
    exact hstands.closing

/-- There may be words behind. -/
theorem before (h : e.StandsIn p us) (vs : List Word) : e.StandsIn p (us ++ vs) := by
  obtain ⟨A, O, B, C, D, rfl, hstands⟩ := h
  exact ⟨A, O, B, C, D ++ vs, by simp only [List.append_assoc, List.cons_append], hstands⟩

/-- The braces are not in front of the words. -/
theorem offset_le (h : e.StandsIn p ws) : p.offset ≤ e.opening.start := by
  obtain ⟨A, O, B, C, D, rfl, hstands⟩ := h
  rw [hstands.opening, Word.start_token, Place.offset_after, Place.offset_after]
  omega

/-- The braces are not behind the words. -/
theorem le_offset (h : e.StandsIn p ws) : e.closing.stop ≤ (p.after (textOf ws)).offset := by
  obtain ⟨A, O, B, C, D, rfl, hstands⟩ := h
  have hwords : A ++ O :: (B ++ C :: D) = A ++ O :: B ++ C :: D := by
    rw [List.append_assoc, List.cons_append]
  rw [hstands.closing, Word.stop_token, hwords, textOf_append _ (C :: D), Place.after_append, textOf_cons,
    Place.after_append, Place.offset_after _ (textOf D)]
  exact Nat.le_add_right ..

end StandsIn

end EnumDef

-- ── Several enums ────────────────────────────────────────────────────────────────

/-- Enums stand among words, apart from one another. -/
structure Braced (p : Place) (ws : List Word) (es : List EnumDef) : Prop where
  stand : ∀ e ∈ es, e.StandsIn p ws
  apart : es.Pairwise EnumDef.Apart

namespace Braced

variable {es fs : List EnumDef}

theorem nil (p : Place) (ws : List Word) : Braced p ws [] :=
  ⟨List.forall_mem_nil _, .nil⟩

theorem singleton {e : EnumDef} (h : e.StandsIn p ws) : Braced p ws [e] :=
  ⟨List.forall_mem_singleton.mpr h, List.pairwise_singleton ..⟩

/-- The enums of words and those of the words behind them. -/
theorem append (h : Braced p us es) (h' : Braced (p.after (textOf us)) vs fs) :
    Braced p (us ++ vs) (es ++ fs) := by
  refine ⟨List.forall_mem_append.mpr ⟨fun e he => ?_, fun f hf => ?_⟩,
    List.pairwise_append.mpr ⟨h.apart, h'.apart, fun e he f hf => .inl ?_⟩⟩
  · exact (h.stand e he).before vs
  · exact (h'.stand f hf).behind
  · exact Nat.le_trans (h.stand e he).le_offset (h'.stand f hf).offset_le

theorem behind (h : Braced (p.after (textOf us)) vs es) : Braced p (us ++ vs) es :=
  (nil p us).append h

theorem perm (h : Braced p ws es) (hperm : es.Perm fs) : Braced p ws fs :=
  ⟨fun f hf => h.stand f (hperm.mem_iff.mpr hf), h.apart.perm hperm EnumDef.Apart.symm⟩

end Braced

-- ── Readers of enums ─────────────────────────────────────────────────────────────

/-- From a stream of words, a reader takes some of them from the front, and the enums of what it gives stand
    among these. -/
def Reader.Finds (source : List Char) (r : Reader α) (enums : α → List EnumDef) : Prop :=
  ∀ ⦃s p ws a s'⦄, s.Holds source p ws → r s = .ok (a, s') →
    ∃ vs ws', ws = vs ++ ws' ∧ s'.Holds source (p.after (textOf vs)) ws' ∧ Braced p vs (enums a)

namespace Reader.Finds

variable {r : Reader α} {enums : α → List EnumDef} {enums' : β → List EnumDef}

theorem pure {a : α} (h : enums a = []) : Finds source (Pure.pure a) enums := by
  intro s p ws b s' hs hr
  cases hr
  exact ⟨[], ws, rfl, hs, h ▸ .nil p []⟩

theorem refuse (what : Expectation) : Finds source (Reader.refuse what) enums :=
  fun _ _ _ _ _ _ h => absurd h (refuse_ne_ok _ _ _)

/-- What is read first holds no enum. -/
theorem behind {f : α → Reader β} (hr : Passes source false r) (hf : ∀ a, Finds source (f a) enums') :
    Finds source (r >>= f) enums' := by
  intro s p ws b s' hs h
  obtain ⟨a, s₁, h1, h2⟩ := exists_of_bind h
  obtain ⟨us, ws₁, rfl, hs₁, -⟩ := hr hs h1
  obtain ⟨vs, ws', rfl, hs', hbraced⟩ := hf a hs₁ h2
  refine ⟨us ++ vs, ws', (List.append_assoc ..).symm, ?_, hbraced.behind⟩
  rw [textOf_append, Place.after_append]
  exact hs'

/-- What is made of a result has the enums of it. -/
theorem map {f : α → β} (hr : Finds source r enums) (hf : ∀ a, enums' (f a) = enums a) :
    Finds source (r >>= fun a => Pure.pure (f a)) enums' := by
  intro s p ws b s' hs h
  obtain ⟨a, s₁, h1, h2⟩ := exists_of_bind h
  cases h2
  obtain ⟨vs, ws', hws, hs', hbraced⟩ := hr hs h1
  exact ⟨vs, ws', hws, hs', (hf a).symm ▸ hbraced⟩

end Reader.Finds

/-- Words of a stream are passed, and to some enums those that stand among these words are added. -/
def Gathers (source : List Char) (p : Place) (ws : List Word) (s : Stream) (old new : List EnumDef) : Prop :=
  ∃ vs ws' es, ws = vs ++ ws' ∧ s.Holds source (p.after (textOf vs)) ws' ∧ Braced p vs es ∧
    new.Perm (old ++ es)

namespace Gathers

variable {s : Stream} {old old' new es : List EnumDef}

theorem refl (hs : s.Holds source p ws) (es : List EnumDef) : Gathers source p ws s es es :=
  ⟨[], ws, [], rfl, hs, .nil .., .of_eq (List.append_nil _).symm⟩

/-- Words are passed, and then others. -/
theorem step (hes : Braced p us es) (hold : old'.Perm (old ++ es))
    (h : Gathers source (p.after (textOf us)) ws s old' new) : Gathers source p (us ++ ws) s old new := by
  obtain ⟨vs, ws', fs, rfl, hs, hfs, hperm⟩ := h
  refine ⟨us ++ vs, ws', es ++ fs, (List.append_assoc ..).symm, ?_, hes.append hfs, ?_⟩
  · rw [textOf_append, Place.after_append]
    exact hs
  · rw [← List.append_assoc]
    exact hperm.trans (hold.append_right _)

/-- From no enums on, all of them stand among the words. -/
theorem braced (h : Gathers source p ws s [] new) :
    ∃ vs ws', ws = vs ++ ws' ∧ s.Holds source (p.after (textOf vs)) ws' ∧ Braced p vs new := by
  obtain ⟨vs, ws', es, hws, hs, hes, hperm⟩ := h
  exact ⟨vs, ws', hws, hs, hes.perm hperm.symm⟩

end Gathers

/-- **An enum that is read stands among the words that it is read from**, with the comments between its
    braces. -/
theorem EnumDef.finds_read (keyword : Token) : Finds source (EnumDef.read source keyword) fun e => [e] := by
  rw [read_eq]
  intro s p ws e s' hs h
  obtain ⟨x, s₁, h1, h⟩ := exists_of_bind h
  obtain ⟨⟨b, closing, dangling⟩, s₂, h2, h3⟩ := exists_of_bind h
  cases h3
  obtain ⟨N, O, ws₁, rfl, hO, hopening, -, hs₁⟩ := readHead_inv hs h1
  obtain ⟨B, C, ws', rfl, hC, hclosing, hs', -, hcomments⟩ := readBody_inv hs₁ h2
  have hwords : N ++ O :: (B ++ [C]) = N ++ [O] ++ (B ++ [C]) := by
    rw [List.append_assoc, List.singleton_append]
  refine ⟨N ++ O :: (B ++ [C]), ws', ?_, ?_, .singleton ⟨N, O, B, C, [], rfl, hO, hC, ?_, ?_, hcomments⟩⟩
  · simp only [List.append_assoc, List.cons_append, List.nil_append]
  · rw [hwords, textOf_append, Place.after_append]
    exact hs'
  · rw [ofParts, hopening]
  · have hfront : N ++ O :: B = N ++ [O] ++ B := by rw [List.append_assoc, List.singleton_append]
    rw [ofParts, hclosing, hfront, textOf_append (N ++ [O]), Place.after_append]

-- ── Messages ─────────────────────────────────────────────────────────────────────

namespace Message

/-- The enums of a message and of those nested in it. -/
def allEnums (m : Message) : List EnumDef := (enumsIn "" m).map Prod.snd

/-- The enums of a message do not depend on the scope that it is found in. -/
theorem map_snd_enumsIn (scope : String) (m : Message) : (enumsIn scope m).map Prod.snd = m.allEnums := by
  rw [allEnums]
  generalize "" = scope'
  induction m using nested_induction generalizing scope scope' with
  | step m ih =>
      rw [enumsIn_eq, enumsIn_eq scope' m, List.map_append, List.map_append, List.map_map, List.map_map,
        List.map_flatMap, List.map_flatMap, List.flatMap_congr fun i hi => ih i hi _ _]
      rfl

theorem allEnums_eq (m : Message) : m.allEnums = m.enums ++ m.messages.flatMap allEnums := by
  rw [allEnums, enumsIn_eq, List.map_append, List.map_map, List.map_flatMap,
    List.flatMap_congr fun i _ => map_snd_enumsIn _ i]
  exact congrArg (· ++ _) (List.map_id _)

/-- The enums of an element of a message. -/
def Element.allEnums : Element → List EnumDef
  | .enum e => [e]
  | _       => []

theorem allEnums_push (m : Message) (x : Element) : (m.push x).allEnums.Perm (m.allEnums ++ x.allEnums) := by
  cases x with
  | enum e =>
      rw [allEnums_eq, allEnums_eq m, List.append_assoc]
      show (m.enums ++ [e] ++ m.messages.flatMap allEnums).Perm _
      rw [List.append_assoc]
      exact .append_left _ List.perm_append_comm
  | _ =>
      rw [allEnums_eq, allEnums_eq m]
      exact .of_eq (List.append_nil _).symm

theorem allEnums_pushMessage (m inner : Message) :
    (m.pushMessage inner).allEnums = m.allEnums ++ inner.allEnums := by
  rw [allEnums_eq, allEnums_eq m, List.append_assoc]
  show m.enums ++ (m.messages ++ [inner]).flatMap allEnums = _
  rw [List.flatMap_append, List.flatMap_singleton]

theorem allEnums_empty (name : String) (position : Position) :
    ({ name, position } : Message).allEnums = [] := by
  rw [allEnums_eq]
  rfl

theorem passes_oneofStep (name : String) (fs : List Field) :
    Passes source false (oneofStep source name fs) := by
  refine .bind .peek? fun kind => ?_
  split
  · split
    · exact .bind (.next _) fun _ => .pure _
    · split
      · exact .bind (.next _) fun _ => .pure _
      · exact .refuse _
  · split
    · exact .bind Setting.passes_readStatement fun _ => .pure _
    · exact .bind (Field.passes_read _) fun _ => .pure _
  · exact .refuse _

theorem finds_readOneof : Finds source (readOneof source) Element.allEnums := by
  rw [readOneof_eq]
  refine .behind (.bind (.name _) fun _ => .bind (.symbol _) fun _ => .pure _) fun name => ?_
  exact .behind (.iterate (passes_oneofStep name) _) fun _ => .pure rfl

/-- The element that a word starts. -/
theorem finds_readNamed (word : String) : Finds source (readNamed source word) Element.allEnums := by
  unfold readNamed
  split
  · exact .behind (.next _) fun _ => .behind passes_readHead fun _ => .pure rfl
  split
  · exact .behind (.next _) fun keyword => (EnumDef.finds_read keyword).map fun _ => rfl
  split
  · exact .behind Setting.passes_readStatement fun _ => .pure rfl
  split
  · exact .behind (.next _) fun _ => finds_readOneof
  split
  · exact .behind (.next _) fun _ => .behind (passes_skipPast _) fun _ => .pure rfl
  split
  · exact .behind (.next _) fun _ => .behind passes_skipBlock fun _ => .pure rfl
  · exact .behind (Field.passes_read _) fun _ => .pure rfl

theorem finds_readElement : Finds source (readElement source) Element.allEnums := by
  refine .behind .dropHeld fun _ => .behind .peek? fun kind => ?_
  split
  · exact .refuse _
  · split
    · exact .behind (.next _) fun _ => .pure rfl
    · split
      · exact .behind (.next _) fun _ => .pure rfl
      · exact .refuse _
  · exact finds_readNamed _
  · exact .refuse _

/-- **The elements up to a closing brace add the enums among their words.** -/
theorem gathers_readBody {s s' : Stream} {m m' : Message} (hs : s.Holds source p ws)
    (h : readBody source m s = .ok (m', s')) : Gathers source p ws s' m.allEnums m'.allEnums := by
  rw [readBody_eq_ok_iff] at h
  induction h generalizing p ws with
  | close element =>
      obtain ⟨us, ws₁, rfl, hs₁, hx⟩ := finds_readElement hs element
      exact .step hx (.of_eq (List.append_nil _).symm) (.refl hs₁ _)
  | @push m _ _ _ _ x element _ _ ih =>
      obtain ⟨us, ws₁, rfl, hs₁, hx⟩ := finds_readElement hs element
      exact .step hx (allEnums_push m x) (ih hs₁)
  | nested element _ _ ihInside ihRest =>
      obtain ⟨us, ws₁, rfl, hs₁, hx⟩ := finds_readElement hs element
      have hinner := ihInside hs₁
      rw [allEnums_empty] at hinner
      obtain ⟨vs, ws₂, rfl, hs₂, hvs⟩ := hinner.braced
      have hrest := ihRest hs₂
      rw [allEnums_pushMessage] at hrest
      exact .step hx (.of_eq (List.append_nil _).symm) (.step hvs (.refl _) hrest)

theorem finds_read : Finds source (read source) allEnums := by
  refine .behind passes_readHead fun x s p ws m s' hs h => ?_
  have hbody := gathers_readBody hs h
  rw [allEnums_empty] at hbody
  exact hbody.braced

end Message

-- ── Schemas ──────────────────────────────────────────────────────────────────────

namespace Schema

/-- The enums of a schema at every depth. -/
def allEnums (s : Schema) : List EnumDef := s.enums ++ s.messages.flatMap Message.allEnums

theorem map_snd_enumsIn (s : Schema) : s.enumsIn.map Prod.snd = s.allEnums := by
  rw [enumsIn, Message.allEnumsIn_eq, List.map_append, List.map_map, List.map_flatMap,
    List.flatMap_congr fun m _ => Message.map_snd_enumsIn _ m]
  exact congrArg (· ++ _) (List.map_id _)

/-- The enums of a statement. -/
def Item.allEnums : Item → List EnumDef
  | .enum e    => [e]
  | .message m => m.allEnums
  | _          => []

theorem allEnums_push (s : Schema) (x : Item) : (s.push x).allEnums.Perm (s.allEnums ++ x.allEnums) := by
  cases x with
  | enum e =>
      show (s.enums ++ [e] ++ s.messages.flatMap Message.allEnums).Perm (s.enums ++ _ ++ [e])
      rw [List.append_assoc, List.append_assoc]
      exact .append_left _ List.perm_append_comm
  | message m =>
      show (s.enums ++ (s.messages ++ [m]).flatMap Message.allEnums).Perm (s.enums ++ _ ++ m.allEnums)
      rw [List.flatMap_append, List.flatMap_singleton, List.append_assoc]
  | _ => exact .of_eq (List.append_nil _).symm

/-- The statement that a word starts. -/
theorem finds_readItemNamed (word : String) : Finds source (readItemNamed source word) Item.allEnums := by
  unfold readItemNamed
  split
  · exact .behind (.next _) fun _ => .behind (.bind (.symbol _) fun _ => passes_path _) fun _ => .pure rfl
  split
  · exact .behind (.next _) fun _ => .behind (.bind (.name _) fun _ => .bind (.symbol _) fun _ => .pure _)
      fun _ => .pure rfl
  split
  · exact .behind (.next _) fun _ => .behind (.bind (.accept _) fun _ => passes_path _) fun _ => .pure rfl
  split
  · exact .behind Setting.passes_readStatement fun _ => .pure rfl
  split
  · exact .behind (.next _) fun _ => Message.finds_read.map fun _ => rfl
  split
  · exact .behind (.next _) fun keyword => (EnumDef.finds_read keyword).map fun _ => rfl
  split
  · exact .behind (.next _) fun _ => .behind passes_skipBlock fun _ => .pure rfl
  · exact .refuse _

theorem finds_readItem : Finds source (readItem source) Item.allEnums := by
  refine .behind .peek? fun kind => ?_
  split
  · split
    · exact .behind (.next _) fun _ => .pure rfl
    · exact .refuse _
  · exact finds_readItemNamed _
  · exact .refuse _

/-- **The statements up to the end of the input add the enums among their words.** -/
theorem gathers_iterate {t t' : Stream} {s s' : Schema} (ht : t.Holds source p ws)
    (h : iterate (step source) (proceeds_step source) s t = .ok (s', t')) :
    Gathers source p ws t' s.allEnums s'.allEnums := by
  fun_induction Reader.iterate (step source) (proceeds_step source) s t generalizing p ws with
  | case1 => cases h
  | case2 s t x t₁ h1 =>
      cases h
      rcases step_inv h1 with ⟨hx, -, rfl⟩ | ⟨item, hx, -⟩
      · cases hx
        exact .refl (ht.held []) _
      · cases hx
  | case3 s t s₁ t₁ h1 hlt ih =>
      rcases step_inv h1 with ⟨hx, -, -⟩ | ⟨item, hx, hitem⟩
      · cases hx
      · cases hx
        obtain ⟨us, ws₁, rfl, ht₁, hus⟩ := finds_readItem (ht.held []) hitem
        exact .step hus (allEnums_push s item) (ih ht₁ h)

end Schema

-- ── Comments between braces ──────────────────────────────────────────────────────

/-- Of tokens in order, those behind one of them and in front of another are the ones between the two. -/
theorem Token.filter_between {front between back : List Token} {o c : Token}
    (hnonempty : ∀ t ∈ front ++ o :: (between ++ c :: back), t.span.start < t.span.stop)
    (hordered : (front ++ o :: (between ++ c :: back)).Pairwise fun t u => t.span.stop ≤ u.span.start) :
    ((front ++ o :: (between ++ c :: back)).filter fun t =>
      o.span.stop ≤ t.span.start ∧ t.span.stop ≤ c.span.start) = between := by
  let inside : Token → Bool := fun t => o.span.stop ≤ t.span.start ∧ t.span.stop ≤ c.span.start
  obtain ⟨-, hbehind, hstopFront⟩ := List.pairwise_append.mp hordered
  obtain ⟨hstartO, hbehind⟩ := List.pairwise_cons.mp hbehind
  obtain ⟨-, hbehind, hstopBetween⟩ := List.pairwise_append.mp hbehind
  obtain ⟨hstartBack, -⟩ := List.pairwise_cons.mp hbehind
  simp only [List.forall_mem_append, List.forall_mem_cons] at hnonempty
  obtain ⟨hnonemptyFront, hnonemptyO, -, hnonemptyC, hnonemptyBack⟩ := hnonempty
  have hfront : front.filter inside = [] := by
    refine List.filter_eq_nil_iff.mpr fun t ht => ?_
    have hstop := hstopFront t ht o (List.mem_cons_self ..)
    have hlt := hnonemptyFront t ht
    simp only [inside, decide_eq_true_eq]
    omega
  have hbetween : between.filter inside = between := by
    refine List.filter_eq_self.mpr fun t ht => decide_eq_true ⟨?_, ?_⟩
    · exact hstartO t (List.mem_append_left _ ht)
    · exact hstopBetween t ht c (List.mem_cons_self ..)
  have hback : back.filter inside = [] := by
    refine List.filter_eq_nil_iff.mpr fun t ht => ?_
    have hstart := hstartBack t ht
    have hlt := hnonemptyBack t ht
    simp only [inside, decide_eq_true_eq]
    omega
  have ho : ¬ inside o = true := by
    simp only [inside, decide_eq_true_eq]
    omega
  have hc : ¬ inside c = true := by
    simp only [inside, decide_eq_true_eq]
    omega
  show (front ++ o :: (between ++ c :: back)).filter inside = between
  rw [List.filter_append, hfront, List.nil_append, List.filter_cons_of_neg ho, List.filter_append, hbetween,
    List.filter_cons_of_neg hc, hback, List.append_nil]

/-- **The comments of an enum are those between its braces.** -/
theorem EnumDef.Stands.commentsIn {e : EnumDef} {A B D : List Word} {O C : Word} {ts : List Token}
    (h : e.Stands p A O B C) (hts : Token.Tiles source ts) (hwords : ts = placed p (A ++ O :: (B ++ C :: D))) :
    e.commentsIn ts = Token.comments B := by
  obtain ⟨hnonempty, hordered, -, -⟩ := hts
  rw [placed_append, placed_cons, placed_append, placed_cons] at hwords
  have hclosing : e.closing =
      (C.token (((p.after (textOf A)).after O.text).after (textOf B))).span := by
    rw [h.closing, textOf_append, Place.after_append, textOf_cons, Place.after_append]
  rw [EnumDef.commentsIn, h.opening, hclosing, hwords, Token.filter_between, comments_placed]
  · exact hwords ▸ hnonempty
  · exact hwords ▸ hordered

/-- **Every enum of a schema has the comments between its braces**, each of them once and no others. No two enums
    have a part of the source between their braces in common. -/
theorem Schema.comments_parse {source : String} {s : Schema} (h : parse source = .ok s) :
    ∃ ts, tokenize source = .ok ts ∧
      (∀ x ∈ s.enumsIn,
        Text.slice source.toList x.2.opening = ['\x7b'] ∧ Text.slice source.toList x.2.closing = ['\x7d'] ∧
        x.2.comments = x.2.commentsIn ts) ∧
      s.enumsIn.Pairwise fun x y => x.2.Apart y.2 := by
  obtain ⟨ws, tail, s', hsource, htail, hreads, hrun⟩ := parse_inv h
  have hs := holds_ofTokens hreads hsource
  have hgathers := gathers_iterate hs hrun
  obtain ⟨vs, ws', rfl, -, hbraced⟩ : ∃ vs ws', ws = vs ++ ws' ∧ _ ∧ Braced {} vs s.allEnums := hgathers.braced
  have htokens : tokenize source = .ok (placed {} (vs ++ ws')) := by
    rw [tokenize, hsource]
    exact scan_words _ hreads htail
  refine ⟨_, htokens, fun x hx => ?_, ?_⟩
  · have htiles : Token.Tiles source.toList (placed {} (vs ++ ws')) := hsource ▸ Token.tiles_placed hreads htail
    have hmem : x.2 ∈ s.allEnums := by
      rw [← map_snd_enumsIn]
      exact List.mem_map_of_mem hx
    obtain ⟨A, O, B, C, D, hwords, hstands⟩ := (hbraced.stand _ hmem).before ws'
    have hlies := hs.lies
    rw [hwords] at hlies
    refine ⟨?_, ?_, ?_⟩
    · rw [hstands.opening]
      exact hlies.slice_symbol hstands.opens
    · have hfront : A ++ O :: (B ++ C :: D) = A ++ O :: B ++ C :: D := by
        rw [List.append_assoc, List.cons_append]
      rw [hfront] at hlies
      rw [hstands.closing]
      exact hlies.slice_symbol hstands.closes
    · rw [hstands.comments, hstands.commentsIn htiles (congrArg (placed {}) hwords)]
  · have happart := hbraced.apart
    rw [← map_snd_enumsIn, List.pairwise_map] at happart
    exact happart

/-- Comments in front of, between and behind two enums, and everywhere between their braces. -/
def commentedEnums : String :=
  "// top\n" ++
  "enum Mode \x7b // opening\n" ++
  "  option (bitmap) = true; // marker\n" ++
  "  // machine\n" ++
  "  M = 1 [deprecated /* since */ = true]; // behind\n" ++
  "  reserved 3; /* skipped */ ;\n" ++
  "  // last\n" ++
  "\x7d // closing\n" ++
  "message Hart \x7b // head\n" ++
  "  enum Trap \x7b /* none */ NONE = 0; \x7d // tail\n" ++
  "\x7d\n"

/-- Each enum has its own. -/
theorem comments_parse_commentedEnums :
    ∃ s ts, Schema.parse commentedEnums = .ok s ∧ tokenize commentedEnums = .ok ts ∧
      (s.enumsIn.map fun x => x.2.commentsIn ts) =
        [["// opening", "// marker", "// machine", "/* since */", "// behind", "/* skipped */", "// last"],
          ["/* none */"]] ∧
      (∀ x ∈ s.enumsIn, x.2.comments = x.2.commentsIn ts) ∧ s.enumsIn.Pairwise fun x y => x.2.Apart y.2 := by
  have hcomputed : ((Schema.parse commentedEnums).toOption.bind fun s =>
      (tokenize commentedEnums).toOption.map fun ts => s.enumsIn.map fun x => x.2.commentsIn ts) =
        some [["// opening", "// marker", "// machine", "/* since */", "// behind", "/* skipped */", "// last"],
          ["/* none */"]] := by
    rw [Schema.parse_eq, tokenize]
    delta commentedEnums
    simp only [String.toList_append, String.reduceToList]
    decide +kernel
  cases h : Schema.parse commentedEnums with
  | error e => rw [h] at hcomputed; cases hcomputed
  | ok s =>
      obtain ⟨ts, hts, hcomments, hapart⟩ := Schema.comments_parse h
      rw [h, hts] at hcomputed
      exact ⟨s, ts, rfl, hts, Option.some.inj hcomputed, fun x hx => (hcomments x hx).2.2, hapart⟩

end FlagSchema
