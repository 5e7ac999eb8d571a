import Mathlib.Algebra.BigOperators.Group.Multiset.Basic
import FlagSchema.Lowering.Enum
import FlagSchema.Proofs.Bodies
import FlagSchema.Proofs.Numerals

/-!
# Writing sets of flags

The lines of the body of a set of flags are read as the options and values that they are written for,
wherever they stand.

* **`EnumDef.Adds`**: words are read as options and values of an enum.
* **`EnumDef.Writes`**: lines are, and they hold certain comments.
* **`Setting.Spelled.writes`**, **`EnumValue.Spelled.writes`**: the line of an option, the lines of a
  value.
* **`EnumDef.Writes.join`**: lines one after another.
-/

namespace FlagSchema

open Token Reader

variable {source : List Char} {p : Place}

-- ── Comments written anew ────────────────────────────────────────────────────────

namespace Token

/-- A text that was read as a comment. -/
def IsComment (text : String) : Prop := ∃ w tail, Word.Leads w tail ∧ w.kind = .comment text

/-- The comments among words that can be read. -/
theorem Reads.isComment {ws : List Word} {tail : List Char} (h : Reads tail ws) :
    ∀ text ∈ comments ws, IsComment text := by
  induction ws with
  | nil => exact nofun
  | cons w ws ih =>
      obtain ⟨-, hleads, hws⟩ := h
      intro text htext
      cases hw : w.kind.isComment with
      | true =>
          obtain ⟨c, hc⟩ := exists_of_isComment hw
          rw [comments_cons_comment hc] at htext
          rcases List.mem_cons.mp htext with rfl | htext
          · exact ⟨w, _, hleads, hc⟩
          · exact ih hws text htext
      | false =>
          rw [comments_cons hw] at htext
          exact ih hws text htext

/-- A comment behind a statement, as a word or none. -/
def behindWords : Option String → List Word
  | some c => [⟨[' '], c.toList, .comment c⟩]
  | none   => []

theorem textOf_behindWords (c : Option String) : textOf (behindWords c) = (EnumDef.behind c).toList := by
  cases c with
  | none => rfl
  | some c => simp [behindWords, EnumDef.behind, Word.text]

@[simp] theorem comments_behindWords (c : Option String) : comments (behindWords c) = c.toList := by
  cases c <;> rfl

@[simp] theorem significant_behindWords (p : Place) (c : Option String) :
    significant (placed p (behindWords c)) = [] := by
  cases c <;> rfl

theorem reads_behindWords {c : Option String} (h : ∀ text ∈ c, IsComment text) (rest : List Char) :
    Reads ('\n' :: rest) (behindWords c) := by
  cases c with
  | none => trivial
  | some c =>
      obtain ⟨w, tail, hleads, hw⟩ := h c rfl
      exact ⟨rfl, hleads.comment_anew hw _ rest, trivial⟩

/-- Words that end with a symbol are read in front of any text. -/
theorem Reads.of_symbol {ws : List Word} {w : Word} {c : Char} {cs : List Char}
    (h : Reads cs (ws ++ [w])) (hw : w.kind = .symbol c) (hdot : c ≠ '.') (hslash : c ≠ '/')
    (ds : List Char) : Reads ds (ws ++ [w]) := by
  obtain ⟨-, -, hleads, -⟩ := reads_append.mp h
  exact h.of_last (hleads.text_ne_dot (.inr ⟨c, hw, hdot, hslash⟩)) (hleads.of_symbol hw hdot hslash ds)

end Token

-- ── Words that are read as options and values ────────────────────────────────────

namespace EnumDef

/-- The statements of an enum up to its closing brace, behind some that have been read. -/
def readStatements (source : List Char) (b : Body) : Reader (Body × Token) :=
  iterate (bodyStep source) (proceeds_bodyStep source) b

theorem readStatements_inl {b b' : Body} {t t' : Stream}
    (h : bodyStep source b t = .ok (.inl b', t')) :
    readStatements source b t = readStatements source b' t' := by
  rw [readStatements, iterate_eq]
  exact bind_ok h

/-- Words are read as options and values of an enum, wherever they stand. -/
def Adds (W : List Word) (xs : List Setting) (ys : List EnumValue) : Prop :=
  ∀ ⦃source q t us⦄ (b : Body), Lies source q W → t.tokens = significant (placed q W) ++ us →
    ∃ b' t', readStatements source b t = readStatements source b' t' ∧ t'.tokens = us ∧
      b'.settings.map Setting.bare = b.settings.map Setting.bare ++ xs.map Setting.bare ∧
      b'.values.map EnumValue.bare = b.values.map EnumValue.bare ++ ys.map EnumValue.bare

namespace Adds

variable {W W' : List Word} {xs xs' : List Setting} {ys ys' : List EnumValue}

/-- Comments add nothing. -/
theorem of_comments (h : ∀ w ∈ W, w.kind.isComment = true) : Adds W [] [] := by
  intro source q t us b _ ht
  rw [significant_placed_comments h, List.nil_append] at ht
  exact ⟨b, t, rfl, ht, (List.append_nil _).symm, (List.append_nil _).symm⟩

theorem append (h : Adds W xs ys) (h' : Adds W' xs' ys') : Adds (W ++ W') (xs ++ xs') (ys ++ ys') := by
  intro source q t us b hq ht
  rw [placed_append, significant_append, List.append_assoc] at ht
  obtain ⟨b₁, t₁, h₁, ht₁, hxs₁, hys₁⟩ := h b hq.left ht
  obtain ⟨b₂, t₂, h₂, ht₂, hxs₂, hys₂⟩ := h' b₁ hq.right ht₁
  refine ⟨b₂, t₂, h₁.trans h₂, ht₂, ?_, ?_⟩
  · rw [hxs₂, hxs₁, List.append_assoc, List.map_append]
  · rw [hys₂, hys₁, List.append_assoc, List.map_append]

/-- A comment behind them adds nothing. -/
theorem behind (h : Adds W xs ys) (c : Option String) : Adds (W ++ behindWords c) xs ys := by
  have hcomment : Adds (behindWords c) [] [] :=
    .of_comments (by cases c <;> simp [behindWords, Kind.isComment])
  have hboth := h.append hcomment
  rwa [List.append_nil, List.append_nil] at hboth

end Adds

-- ── Lines ────────────────────────────────────────────────────────────────────────

/-- Lines are read as options and values, and hold certain comments. The words take the line feeds from
    the lines before. -/
def Writes (text : String) (cs : Multiset String) (xs : List Setting) (ys : List EnumValue) : Prop :=
  ∃ W, '\n' :: text.toList = textOf W ++ ['\n'] ∧ comments W = cs ∧
    (∀ rest, Reads ('\n' :: rest) W) ∧ Adds W xs ys

namespace Writes

variable {text text' : String} {cs cs' : Multiset String} {xs xs' : List Setting}
  {ys ys' : List EnumValue}

theorem nil : Writes "" 0 [] [] :=
  ⟨[], rfl, rfl, fun _ => trivial, .of_comments nofun⟩

theorem append (h : Writes text cs xs ys) (h' : Writes text' cs' xs' ys') :
    Writes (text ++ text') (cs + cs') (xs ++ xs') (ys ++ ys') := by
  obtain ⟨W, htext, rfl, hreads, hadds⟩ := h
  obtain ⟨W', htext', rfl, hreads', hadds'⟩ := h'
  refine ⟨W ++ W', ?_, ?_, fun rest => reads_append.mpr ⟨?_, hreads' rest⟩, hadds.append hadds'⟩
  · rw [String.toList_append, ← List.cons_append, htext, textOf_append, List.append_assoc,
      List.append_assoc, ← htext']
    rfl
  · rw [comments_append, Multiset.coe_add]
  · have hfeed : textOf W' ++ '\n' :: rest = '\n' :: (text'.toList ++ rest) := by
      rw [← List.singleton_append, ← List.append_assoc, ← htext']
      rfl
    rw [hfeed]
    exact hreads _

/-- Lines for each of several things. -/
theorem join {α : Type} {zs : List α} {line : α → String} {comment : α → Multiset String}
    {setting : α → List Setting} {value : α → List EnumValue}
    (h : ∀ z ∈ zs, Writes (line z) (comment z) (setting z) (value z)) :
    Writes (String.join (zs.map line)) (zs.map comment).sum (zs.flatMap setting) (zs.flatMap value) := by
  induction zs with
  | nil => exact nil
  | cons z zs ih =>
      rw [List.map_cons, String.join_cons, List.map_cons, List.sum_cons, List.flatMap_cons,
        List.flatMap_cons]
      exact (h z (List.mem_cons_self ..)).append (ih fun x hx => h x (List.mem_cons_of_mem _ hx))

theorem flatMap_nil {α β : Type} (zs : List α) : (zs.flatMap fun _ => ([] : List β)) = [] :=
  List.flatMap_eq_nil_iff.mpr fun _ _ => rfl

/-- Lines for each of several options. -/
theorem joinSettings {line : Setting → String} {comment : Setting → Multiset String}
    (h : ∀ x ∈ xs, Writes (line x) (comment x) [x] []) :
    Writes (String.join (xs.map line)) (xs.map comment).sum xs [] := by
  have hjoin := join h
  rw [flatMap_nil, List.flatMap_singleton'] at hjoin
  exact hjoin

/-- Lines for each of several values. -/
theorem joinValues {line : EnumValue → String} {comment : EnumValue → Multiset String}
    (h : ∀ y ∈ ys, Writes (line y) (comment y) [] [y]) :
    Writes (String.join (ys.map line)) (ys.map comment).sum [] ys := by
  have hjoin := join h
  rw [flatMap_nil, List.flatMap_singleton'] at hjoin
  exact hjoin

/-- The line feed and the indentation in front of a line are blanks. -/
theorem all_isBlank_line {indent : String} (h : indent.toList.all Text.isBlank = true) :
    ('\n' :: indent.toList).all Text.isBlank = true := by
  rw [List.all_cons, h]
  decide

/-- A line with a comment. -/
theorem comment {indent : String} (hindent : indent.toList.all Text.isBlank = true) {c : String}
    (hc : IsComment c) : Writes (indent ++ c ++ "\n") {c} [] [] := by
  obtain ⟨w, tail, hleads, hw⟩ := hc
  refine ⟨[⟨'\n' :: indent.toList, c.toList, .comment c⟩], ?_, rfl, fun rest => ?_, ?_⟩
  · simp [Word.text]
  · exact ⟨all_isBlank_line hindent, hleads.comment_anew hw _ rest, trivial⟩
  · exact .of_comments (by simp [Kind.isComment])

/-- Lines with a comment each. -/
theorem allComments {indent : String} (hindent : indent.toList.all Text.isBlank = true)
    {texts : List String} (h : ∀ c ∈ texts, IsComment c) :
    Writes (String.join (texts.map fun c => indent ++ c ++ "\n")) texts [] [] := by
  have hsum : (texts.map fun c => ({c} : Multiset String)).sum = texts := by
    simpa using Multiset.sum_map_singleton (texts : Multiset String)
  have hjoin := join fun c hc => comment hindent (h c hc)
  rw [hsum, flatMap_nil, flatMap_nil] at hjoin
  exact hjoin

end Writes

end EnumDef

-- ── Options ──────────────────────────────────────────────────────────────────────

/-- A statement of the body that is an option. -/
theorem EnumDef.bodyStep_setting {t t' : Stream} {x : Setting} (b : EnumDef.Body)
    (hk : t.kindAt? 0 = some (.ident "option")) (hv : t.symbolAt 1 '=' = false)
    (h : Setting.readStatement source t = .ok (x, t')) :
    bodyStep source b t = .ok (.inl { b with settings := b.settings ++ [x] }, t') := by
  have hpeek : peek? t = .ok (some (.ident "option"), t) := by rw [← hk]; rfl
  have hahead : symbolAhead 1 '=' t = .ok (false, t) := by rw [← hv]; rfl
  unfold bodyStep
  rw [bind_ok hpeek]
  dsimp only
  rw [bind_ok hahead, if_pos ⟨rfl, rfl⟩]
  exact bind_ok h

namespace Setting

variable {x : Setting} {w v : Word} {us : List Word}

/-- The comments of what an option quotes. -/
def quoted (source : List Char) (x : Setting) : Multiset String :=
  Text.comments (Text.slice source x.span)

namespace Spelled

/-- What an option quotes can be read behind other blanks and in front of any text. -/
theorem reads_anew (h : x.Spelled source w us v) {b : List Char} (hb : b.all Text.isBlank = true)
    (rest : List Char) : Reads rest ({ w with blank := b } :: (us ++ [v])) := by
  obtain ⟨tail, hreads⟩ := h.reads
  rw [← List.cons_append] at hreads
  have hany := hreads.of_symbol h.semicolon (by decide) (by decide) rest
  exact ⟨hb, hany.2⟩

theorem quoted_eq (h : x.Spelled source w us v) : x.quoted source = comments (us ++ [v]) := by
  have hw : ({ w with blank := [] } : Word).kind.isComment = false := by rw [h.keyword]; rfl
  have hcomments := comments_textOf (h.reads_anew (b := []) rfl []) rfl
  rw [comments_cons hw, List.append_nil] at hcomments
  rw [quoted, h.slice]
  exact hcomments

/-- The words of an option are read as the option. -/
theorem adds (h : x.Spelled source w us v) (b : List Char) :
    EnumDef.Adds ({ w with blank := b } :: (us ++ [v])) [x] [] := by
  intro source' q t rest body hq ht
  have hw : w.kind.isComment = false := by rw [h.keyword]; rfl
  have hv : v.kind.isComment = false := by rw [h.semicolon]; rfl
  rw [placed_cons, significant_cons (by exact hw), List.cons_append] at ht
  have hkind : t.kindAt? 0 = some (.ident "option") := by
    rw [kindAt?_zero ht, Word.token_kind, h.keyword]
  have hvalue : t.symbolAt 1 '=' = false := by
    rw [Stream.symbolAt, Stream.kindAt?_eq, ht, List.getElem?_cons_succ, List.getElem?_append_left]
    · exact beq_eq_false_iff_ne.mpr (h.noValue _)
    · rw [placed_append, significant_append, placed_cons, significant_cons hv, List.length_append]
      exact Nat.lt_of_lt_of_le (Nat.zero_lt_succ _) (Nat.le_add_left ..)
  obtain ⟨t₁, hnext, ht₁⟩ := next_ok .optionName ht
  obtain ⟨y, t', hread, ht', hbare⟩ := h.readsAs _ hq.tail ht₁
  have hstatement : readStatement source' t = .ok (y, t') := by
    rw [readStatement_eq, bind_ok hnext]
    exact hread
  refine ⟨_, t', EnumDef.readStatements_inl (EnumDef.bodyStep_setting body hkind hvalue hstatement), ht',
    ?_, (List.append_nil _).symm⟩
  rw [List.map_append, List.map_singleton, List.map_singleton, hbare]

/-- **The line of an option is read as the option.** -/
theorem writes (h : x.Spelled source w us v) {indent : String}
    (hindent : indent.toList.all Text.isBlank = true) (hx : ∀ c ∈ x.trailing, IsComment c) :
    EnumDef.Writes (EnumDef.settingLine source indent x) (x.quoted source + x.behind) [x] [] := by
  refine ⟨{ w with blank := '\n' :: indent.toList } :: (us ++ [v]) ++ behindWords x.trailing, ?_, ?_,
    fun rest => ?_, ?_⟩
  · rw [EnumDef.settingLine, h.slice, textOf_append _ (behindWords _), textOf_behindWords]
    simp [Word.text]
  · have hw : ({ w with blank := '\n' :: indent.toList } : Word).kind.isComment = false := by
      rw [h.keyword]; rfl
    rw [comments_append, comments_cons hw, comments_behindWords, ← Multiset.coe_add, h.quoted_eq]
    rfl
  · exact reads_append.mpr
      ⟨h.reads_anew (EnumDef.Writes.all_isBlank_line hindent) _, reads_behindWords hx rest⟩
  · exact (h.adds _).behind x.trailing

end Spelled

end Setting

-- ── Values ───────────────────────────────────────────────────────────────────────

/-- A statement of the body that is a value. -/
theorem EnumDef.bodyStep_value {t t' : Stream} {word : String} {y : EnumValue} (b : EnumDef.Body)
    (hk : t.kindAt? 0 = some (.ident word)) (hv : t.symbolAt 1 '=' = true)
    (h : EnumValue.read source t = .ok (y, t')) :
    bodyStep source b t = .ok (.inl { b with values := b.values ++ [y] }, t') := by
  have hpeek : peek? t = .ok (some (.ident word), t) := by rw [← hk]; rfl
  have hahead : symbolAhead 1 '=' t = .ok (true, t) := by rw [← hv]; rfl
  unfold bodyStep
  rw [bind_ok hpeek]
  dsimp only
  rw [bind_ok hahead, if_neg (by simp), if_neg (by simp)]
  exact bind_ok h

namespace EnumValue

variable {y : EnumValue}

/-- The comments of what a value quotes. -/
def quoted (source : List Char) (y : EnumValue) : Multiset String :=
  (y.settingsSpan.map fun span => Text.comments (Text.slice source span)).getD 0

/-- The options of a value as written, behind a blank. -/
def quotation (source : List Char) (y : EnumValue) : String :=
  match y.settingsSpan with
  | some span => " " ++ String.ofList (Text.slice source span)
  | none      => ""

/-- What words between the number of a value and its semicolon are read as. -/
structure Quotes (source : List Char) (y : EnumValue) (V : List Word) : Prop where
  text     : (y.quotation source).toList = textOf V
  comments : y.quoted source = comments V
  reads    : ∀ rest, Reads (';' :: rest) V
  ends     : ∀ rest, DigitsEnd (textOf V ++ ';' :: rest)
  readsAs  : ∀ ⦃source' q t semicolon us⦄, Lies source' q V →
    t.tokens = significant (placed q V) ++ semicolon :: us → semicolon.kind = .symbol ';' →
    ∃ x t', Setting.readBracketed source' t = .ok (x, t') ∧ t'.tokens = semicolon :: us ∧
      x.1.map Setting.bare = y.settings.map Setting.bare

/-- A value without options quotes nothing. -/
theorem Quotes.nil (hx : y.settings = []) (hspan : y.settingsSpan = none) : y.Quotes source [] where
  text := by rw [quotation, hspan]; rfl
  comments := by rw [quoted, hspan]; rfl
  reads _ := trivial
  ends rest := by
    intro c hc
    cases hc
    decide
  readsAs := by
    intro source' q t semicolon us _ ht hk
    have hnone : accept (symbolForm '[') t = .ok (none, t) := by
      refine accept_eq_none_iff.mpr ⟨?_, rfl⟩
      rw [kindAt?_zero ht, hk]
      rfl
    refine ⟨([], none), t, ?_, ht, by rw [hx]⟩
    rw [Setting.readBracketed_eq]
    exact bind_ok hnone

/-- The options of a value between their brackets. -/
theorem Bracketed.quotes {span : Span} {us : List Word} {v : Word} (h : y.Bracketed source span us v) :
    y.Quotes source (⟨[' '], ['['], .symbol '['⟩ :: (us ++ [v])) := by
  obtain ⟨tail, hreads⟩ := h.reads
  have hany : ∀ b rest, b.all Text.isBlank = true →
      Reads rest ((⟨b, ['['], .symbol '['⟩ : Word) :: (us ++ [v])) := fun b rest hb =>
    ⟨hb, leads_symbol _ _ (by decide) (by decide) (by decide) (by decide) (by decide),
      hreads.of_symbol h.closing (by decide) (by decide) rest⟩
  refine ⟨?_, ?_, fun rest => hany _ _ rfl, fun rest => ?_, ?_⟩
  · rw [quotation, h.place]
    simp [h.slice, Word.text]
  · have hcomments := comments_textOf (hany [] [] rfl) rfl
    rw [List.append_nil] at hcomments
    rw [quoted, h.place, Option.map_some, Option.getD_some, h.slice]
    exact hcomments
  · intro c hc
    cases hc
    decide
  · intro source' q t semicolon us' hq ht _
    rw [placed_cons, significant_cons (by rfl), List.cons_append] at ht
    obtain ⟨t₁, haccept, ht₁⟩ :
        ∃ t₁, accept (symbolForm '[') t = .ok (some ((), _), t₁) ∧ t₁.tokens = _ := accept_ok ht rfl
    obtain ⟨x, t', hinside, ht', hx⟩ := h.inside hq.tail ht₁
    have hread := (congrFun (Setting.readBracketed_eq source') t).trans
      ((bind_ok haccept).trans (bind_ok hinside))
    exact ⟨_, t', hread, ht', hx⟩

theorem Spelled.quotes (h : y.Spelled source) : ∃ V, y.Quotes source V := by
  rcases h.settings with ⟨hx, hspan⟩ | ⟨span, us, v, hbracketed⟩
  · exact ⟨[], .nil hx hspan⟩
  · exact ⟨_, hbracketed.quotes⟩

/-- The words of a value with a certain number. -/
def words (b : List Char) (name : String) (n : Nat) (V : List Word) : List Word :=
  ⟨b, name.toList, .ident name⟩ :: ⟨[' '], ['='], .symbol '='⟩ :: ⟨[' '], n.repr.toList, .int n.repr⟩ ::
    (V ++ [⟨[], [';'], .symbol ';'⟩])

theorem reads_words {b : List Char} (hb : b.all Text.isBlank = true) {n : Nat} {V : List Word}
    (hname : ∃ w tail, Word.Leads w tail ∧ w.kind = .ident y.name) (hV : y.Quotes source V)
    (rest : List Char) : Reads rest (words b y.name n V) := by
  obtain ⟨w, tail, hleads, hw⟩ := hname
  obtain ⟨c, cs, hdigits, hall⟩ := digits_repr n
  have hnumber := leads_digits [' '] hall (hV.ends rest)
  rw [← hdigits, String.ofList_toList] at hnumber
  have hsymbol : ∀ c b rest, c = '=' ∨ c = ';' → (⟨b, [c], .symbol c⟩ : Word).Leads rest := by
    rintro c b rest (rfl | rfl) <;>
      exact leads_symbol _ _ (by decide) (by decide) (by decide) (by decide) (by decide)
  refine ⟨hb, ?_, rfl, hsymbol _ _ _ (.inl rfl), rfl, ?_,
    reads_append.mpr ⟨hV.reads rest, rfl, hsymbol _ _ _ (.inr rfl), trivial⟩⟩
  · obtain ⟨-, hspelling, -⟩ := hleads.name_form hw
    have hanew : ∀ cs, ({ w with blank := b } : Word).Leads (' ' :: cs) := fun cs =>
      hleads.of_nameEnds hw ⟨by decide, by simp⟩
    rw [hspelling, ← hw]
    exact hanew _
  · rw [textOf_append, List.append_assoc]
    exact hnumber

/-- The tokens of the number of a value are read as the number. -/
theorem readNumbered_ok {V : List Word} (hV : y.Quotes source V) {source' : List Char} {q : Place}
    {t : Stream} {e i semicolon : Token} {us : List Token} {n : Nat} (hq : Lies source' q V)
    (ht : t.tokens = e :: i :: (significant (placed q V) ++ semicolon :: us)) (he : e.kind = .symbol '=')
    (hi : i.kind = .int n.repr) (hsemicolon : semicolon.kind = .symbol ';') (hn : n < integerLimit) :
    ∃ z t', readNumbered source' t = .ok (z, t') ∧ t'.tokens = us ∧ z.1 = false ∧ z.2.1 = n ∧
      z.2.2.1.1.map Setting.bare = y.settings.map Setting.bare := by
  obtain ⟨t₁, h1, ht₁⟩ := symbol_ok ht he
  have h2 : acceptSymbol '-' t₁ = .ok (false, t₁) := acceptSymbol_none ht₁ (by rw [hi]; simp)
  obtain ⟨t₃, h3, ht₃⟩ := readInteger_ok .enumValueNumber ht₁ hi (integerValue?_repr hn)
  obtain ⟨x, t₄, h4, ht₄, hx⟩ := hV.readsAs hq ht₃ hsemicolon
  obtain ⟨t', h5, ht'⟩ := symbol_ok ht₄ hsemicolon
  refine ⟨(false, n, x, semicolon), t', ?_, ht', rfl, rfl, hx⟩
  exact (bind_ok h1).trans ((bind_ok h2).trans ((bind_ok h3).trans ((bind_ok h4).trans (bind_ok h5))))

/-- The words of a value are read as the value with that number. -/
theorem adds_words (b : List Char) {n : Nat} (hn : n < integerLimit) (hy : y.number = n) {V : List Word}
    (hV : y.Quotes source V) : EnumDef.Adds (words b y.name n V) [] [y] := by
  intro source' q t us body hq ht
  rw [words, placed_cons, placed_cons, placed_cons, placed_append, significant_cons (by rfl),
    significant_cons (by rfl), significant_cons (by rfl), significant_append] at ht
  simp only [List.cons_append, List.append_assoc] at ht
  have hkind : t.kindAt? 0 = some (.ident y.name) := kindAt?_zero ht
  have hvalue : t.symbolAt 1 '=' = true := by
    rw [Stream.symbolAt, Stream.kindAt?_eq, ht]
    exact beq_self_eq_true _
  obtain ⟨t₁, h1, ht₁⟩ := name_ok .enumValue ht rfl
  have h2 : takeHeld t₁ = .ok (t₁.held, { t₁ with held := [] }) := rfl
  obtain ⟨z, t₃, h3, ht₃, hnegative, hnumber, hsettings⟩ :=
    readNumbered_ok (t := { t₁ with held := [] }) hV hq.tail.tail.tail.left ht₁ rfl rfl rfl hn
  obtain ⟨c, t', h4, ht'⟩ := trailing_total z.2.2.2.position.line t₃
  have hread := (congrFun (read_eq source') t).trans
    ((bind_ok h1).trans ((bind_ok h2).trans ((bind_ok h3).trans (bind_ok h4))))
  refine ⟨_, t', EnumDef.readStatements_inl (EnumDef.bodyStep_value body hkind hvalue hread),
    ht'.trans ht₃, (List.append_nil _).symm, ?_⟩
  rw [List.map_append, List.map_singleton, List.map_singleton]
  simp only [bare, ofParts, hnegative, hnumber, hsettings, hy]
  rfl

/-- **The lines of a value are read as the value.** -/
theorem Spelled.writes (h : y.Spelled source) {indent : String}
    (hindent : indent.toList.all Text.isBlank = true) {n : Nat} (hy : y.number = n)
    (hn : n < integerLimit) (hleading : ∀ c ∈ y.leading, IsComment c)
    (htrailing : ∀ c ∈ y.trailing, IsComment c) :
    EnumDef.Writes (EnumDef.valueLines source indent y) (y.quoted source + y.around) [] [y] := by
  obtain ⟨V, hV⟩ := h.quotes
  have hline : EnumDef.Writes (indent ++ y.name ++ " = " ++ toString n ++ y.quotation source ++ ";" ++
      EnumDef.behind y.trailing ++ "\n") (y.quoted source + y.trailing.toList) [] [y] := by
    refine ⟨words ('\n' :: indent.toList) y.name n V ++ behindWords y.trailing, ?_, ?_, fun rest => ?_, ?_⟩
    · rw [textOf_append, textOf_behindWords]
      simp [words, Word.text, hV.text, Nat.toString_eq_repr]
    · rw [comments_append, comments_behindWords, ← Multiset.coe_add, hV.comments, words,
        comments_cons (by rfl), comments_cons (by rfl), comments_cons (by rfl), comments_append,
        comments_cons (by rfl), comments_nil, List.append_nil]
    · exact reads_append.mpr ⟨reads_words (EnumDef.Writes.all_isBlank_line hindent) h.name hV _,
        reads_behindWords htrailing rest⟩
    · exact (adds_words _ hn hy hV).behind y.trailing
  have htext : EnumDef.valueLines source indent y
      = String.join (y.leading.map fun c => indent ++ c ++ "\n") ++ (indent ++ y.name ++ " = " ++
        toString n ++ y.quotation source ++ ";" ++ EnumDef.behind y.trailing ++ "\n") := by
    rw [EnumDef.valueLines, hy]
    simp only [String.append_assoc]
    rfl
  rw [htext, EnumValue.around, add_left_comm]
  exact (EnumDef.Writes.allComments hindent hleading).append hline

end EnumValue

end FlagSchema
