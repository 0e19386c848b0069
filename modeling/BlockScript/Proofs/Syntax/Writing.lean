import BlockScript.Proofs.Syntax.Layout
import BlockScript.Proofs.Syntax.Spelled

/-!
# Writing

A text that is read as the tokens of a phrase, wherever it stands, if what follows it cannot belong
to its last word. Texts are put together from words and blanks.
-/

namespace BlockScript

open Token Phrase

/-- Where an operand ends before it (`before`) or not, the text `cs` is read as a phrase of `P`,
followed by any text that `stop` allows; `after` tells whether it ends with an operand. -/
def Writes (before after : Bool) (stop : List Char → Prop) (cs : List Char) (P : Phrase) : Prop :=
  ∀ p i rest, stop rest → ∃ ts, P ts ∧ ∀ us,
    Scans (p.advance cs) (i + cs.length) after rest us → Scans p i before (cs ++ rest) (ts ++ us)

/-- Any text. -/
def Anything : List Char → Prop := fun _ => True

theorem Token.Stops.of_cons {c : Char} (cs : List Char) (hw : isWordChar c = false) (he : c ≠ '=')
    (hp : c ≠ '.') : Stops (c :: cs) where
  head := by simp [hw, he]
  point := by
    rintro ds h
    cases h
    exact (hp rfl).elim

theorem Token.Stops.of_blank {c : Char} (cs : List Char) (hc : isBlank c) : Stops (c :: cs) := by
  simp only [isBlank, Bool.or_eq_true, decide_eq_true_eq] at hc
  rcases hc with (((rfl | rfl) | rfl) | rfl) | rfl <;>
    exact .of_cons cs rfl (by decide) (by decide)

namespace Writes

variable {f g h : Bool} {stop stop' : List Char → Prop} {cs ds : List Char} {P Q : Phrase}

theorem imp (hw : Writes f g stop cs P) (hPQ : ∀ ts, P ts → Q ts) : Writes f g stop cs Q := by
  intro p i rest hrest
  obtain ⟨ts, hP, hs⟩ := hw p i rest hrest
  exact ⟨ts, hPQ ts hP, hs⟩

theorem stop_imp (hw : Writes f g stop cs P) (hs : ∀ rest, stop' rest → stop rest) :
    Writes f g stop' cs P := fun p i rest hrest => hw p i rest (hs rest hrest)

theorem of_eq (hw : Writes f g stop cs P) (hcs : cs = ds) : Writes f g stop ds P := hcs ▸ hw

theorem nil : Writes f f stop [] Phrase.empty := fun _ _ _ _ => ⟨[], rfl, fun _ hs => hs⟩

theorem append (hP : Writes f g stop cs P) (hQ : Writes g h stop' ds Q)
    (hs : ∀ rest, stop' rest → stop (ds ++ rest)) :
    Writes f h stop' (cs ++ ds) (P.followedBy Q) := by
  intro p i rest hrest
  obtain ⟨ts, hts, hscan⟩ := hP p i (ds ++ rest) (hs rest hrest)
  obtain ⟨us, hus, hscan'⟩ := hQ (p.advance cs) (i + cs.length) rest hrest
  refine ⟨ts ++ us, followedBy_append hts hus, fun vs hv => ?_⟩
  rw [Position.advance_append, List.length_append, ← Nat.add_assoc] at hv
  simpa using hscan _ (hscan' vs hv)

/-- After a text that anything may follow. -/
theorem append_any (hP : Writes f g Anything cs P) (hQ : Writes g h stop ds Q) :
    Writes f h stop (cs ++ ds) (P.followedBy Q) := hP.append hQ fun _ _ => trivial

theorem blank {c : Char} (hc : isBlank c) (hw : Writes f g stop cs P) :
    Writes f g stop (c :: cs) P := by
  intro p i rest hrest
  obtain ⟨ts, hP, hs⟩ := hw (p.step c) (i + 1) rest hrest
  refine ⟨ts, hP, fun us hus => .blank hc (hs us ?_)⟩
  simpa [Nat.add_assoc, Nat.add_comm 1] using hus

theorem blank_end {c : Char} (hc : isBlank c) (hw : Writes f g stop cs P)
    (hs : ∀ rest, stop (c :: rest)) : Writes f g Anything (cs ++ [c]) P := by
  intro p i rest _
  obtain ⟨ts, hP, hscan⟩ := hw p i (c :: rest) (hs rest)
  refine ⟨ts, hP, fun us hus => ?_⟩
  rw [Position.advance_append, List.length_append, ← Nat.add_assoc] at hus
  simpa using hscan us (.blank hc hus)

theorem blanks (n : Nat) (hw : Writes f g stop cs P) :
    Writes f g stop (List.replicate n ' ' ++ cs) P := by
  induction n with
  | zero => exact hw
  | succ n ih => exact ih.blank rfl

/-- A text that is one lexeme. -/
theorem lexeme {k : Kind} {v raw : List Char} {R : Token → Prop}
    (hl : ∀ rest, stop rest → IsLexeme f k v raw rest)
    (hR : ∀ p i, R ⟨k, String.ofList v, String.ofList raw, p, i⟩)
    (hg : endsOperand k (String.ofList v) = g) : Writes f g stop raw (one R) := by
  intro p i rest hrest
  obtain ⟨c, cs, rfl, hc, hlex⟩ := hl rest hrest
  refine ⟨_, one_singleton (hR p i), fun us hus => ?_⟩
  exact .word hc hlex (by simpa [hg] using hus)

/-! ## Words -/

theorem identifier {id : String} (hid : IsIdentifier id) :
    Writes f true Stops id.toList (identifier id) :=
  lexeme (fun _ hr => isLexeme_identifier f hid hr) (fun _ _ => ⟨rfl, by simp⟩) rfl

/-- A reserved word that is not a constant. -/
theorem keyword {word : Keyword} {text : List Char} (ht : word.spelling.toList = text)
    (hg : endsOperand (.keyword word) word.spelling = false) :
    Writes f false Stops text (keyword word) := by
  subst ht
  refine lexeme (fun _ hr => isLexeme_keyword f word hr) (fun _ _ => ?_) (by simpa using hg)
  simp [isKeyword]

/-- A reserved word and the blank after it. -/
theorem keyword_blank {word : Keyword} {c : Char} {text : List Char} (hc : isBlank c)
    (ht : word.spelling.toList ++ [c] = text)
    (hg : endsOperand (.keyword word) word.spelling = false) :
    Writes f false Anything text (Phrase.keyword word) :=
  ((keyword rfl hg).blank_end hc fun rest => .of_blank rest hc).of_eq ht

/-- An operator that no longer one begins with. -/
theorem mark (c : Char) (hc : isMark c) (hs : isSign c = false) (hp : isPair c '=' = false) :
    Writes f (endsOperand .operator (String.ofList [c])) Anything [c]
      (operator (String.ofList [c])) := by
  refine lexeme (fun rest _ => ⟨c, [], rfl, mark_not_blank hc, ?_⟩) (fun _ _ => ?_) rfl
  · rw [List.nil_append, lexeme_mark f hc (.inl hs)]
    cases rest with
    | nil => rfl
    | cons d rest =>
      have hd : isPair c d = false := by
        by_cases hd : d = '='
        · rwa [hd]
        · simp [isPair, hd]
      simp [Token.operator, hd]
  · simp [isOperator]

/-- A binary operator before a blank is one lexeme, a token that denotes the operator. -/
theorem binaryOperator_lexeme (f : Bool) {op : Operator} (hop : op ∈ Operator.known) :
    ∃ kind, (∀ rest, IsLexeme f kind op.spelling.toList op.spelling.toList (' ' :: rest)) ∧
      (∀ raw p i, Grammar.operatorAt op.strength ⟨kind, op.spelling, raw, p, i⟩ = some op) ∧
      endsOperand kind op.spelling = false := by
  cases op with
  | and =>
    exact ⟨.keyword .AND, fun rest => isLexeme_keyword f .AND (.of_blank rest rfl),
      fun _ _ _ => rfl, rfl⟩
  | or =>
    exact ⟨.keyword .OR, fun rest => isLexeme_keyword f .OR (.of_blank rest rfl),
      fun _ _ _ => rfl, rfl⟩
  | eq | ne | le | ge =>
    exact ⟨.operator, fun rest => isLexeme_pair f rfl rfl, fun _ _ _ => rfl, rfl⟩
  | lt | gt | add | sub | mul | div =>
    exact ⟨.operator, fun rest => isLexeme_mark f rfl (.inr rfl) (by simp), fun _ _ _ => rfl, rfl⟩
  | unknown => simp [Operator.known] at hop

/-- A binary operator and the blank after it. -/
theorem binaryOperator {op : Operator} (hop : op ∈ Operator.known) :
    Writes f false Anything (op.spelling.toList ++ [' '])
      (one fun t => Grammar.operatorAt op.strength t = some op) := by
  obtain ⟨kind, hl, ho, hg⟩ := binaryOperator_lexeme f hop
  have hword : Writes f false (fun rest => ∃ ds, rest = ' ' :: ds) op.spelling.toList
      (one fun t => Grammar.operatorAt op.strength t = some op) := by
    refine lexeme (k := kind) (v := op.spelling.toList) ?_ ?_ ?_
    · rintro _ ⟨rest, rfl⟩
      exact hl rest
    · intro p i
      rw [String.ofList_toList]
      exact ho _ p i
    · rwa [String.ofList_toList]
  exact hword.blank_end rfl fun rest => ⟨rest, rfl⟩

/-! ## Lists of items -/

theorem separated_cons (cs : List Char) (texts : List (List Char)) :
    separated (cs :: texts) = cs ++ texts.flatMap fun ds => ',' :: ' ' :: ds := by
  induction texts generalizing cs with
  | nil => simp [separated]
  | cons ds texts ih => simpa [separated, List.intercalate_cons_cons] using ih ds

section

variable {α : Type} {text : α → List Char} {P : α → Phrase} {xs : List α}
  (hxs : ∀ x ∈ xs, Writes false true Stops (text x) (P x))
include hxs

theorem commas : Writes true true Stops ((xs.map text).flatMap fun ds => ',' :: ' ' :: ds)
    (commas (xs.map P)) := by
  induction xs with
  | nil => exact nil
  | cons x xs ih =>
    obtain ⟨hx, hxs⟩ := List.forall_mem_cons.mp hxs
    have hcomma : Writes true false Anything [','] (operator ",") := mark ',' rfl rfl rfl
    refine (hcomma.append_any ((hx.blank (c := ' ') rfl).append (ih hxs) fun rest hr => ?_)).of_eq
      (by simp)
    cases xs with
    | nil => exact hr
    | cons y ys => exact .of_cons _ rfl (by decide) (by decide)

theorem parenthesised : Writes f true Anything ('(' :: separated (xs.map text) ++ [')'])
    (parenthesised (xs.map P)) := by
  have hopen : Writes f false Anything ['('] (operator "(") := mark '(' rfl rfl rfl
  have hclose : ∀ {g}, Writes g true Anything [')'] (operator ")") := mark ')' rfl rfl rfl
  have hstop : ∀ rest, Stops ([')'] ++ rest) := fun rest =>
    .of_cons rest rfl (by decide) (by decide)
  cases xs with
  | nil => exact hopen.append_any hclose
  | cons x xs =>
    obtain ⟨hx, hxs⟩ := List.forall_mem_cons.mp hxs
    have hitems := (commas hxs).append hclose fun rest _ => hstop rest
    refine (hopen.append_any (hx.append hitems fun rest _ => ?_)).of_eq (by simp [separated_cons])
    cases xs with
    | nil => exact hstop rest
    | cons y ys => exact .of_cons _ rfl (by decide) (by decide)

end

end Writes

/-! ## Expressions -/

namespace Phrase

/-- A phrase of something that `u` does not tell from `x`. -/
def upTo {α β : Type} (u : α → β) (S : α → Phrase) (x : α) : Phrase := fun ts =>
  ∃ x', u x' = u x ∧ S x' ts

section

variable {α β : Type} {u : α → β} {S : α → Phrase} {xs : List α} {ts : List Token}

theorem all_upTo (h : all (xs.map (upTo u S)) ts) :
    ∃ xs' : List α, xs'.map u = xs.map u ∧ all (xs'.map S) ts := by
  induction xs generalizing ts with
  | nil => exact ⟨[], rfl, h⟩
  | cons x xs ih =>
    obtain ⟨us, vs, rfl, ⟨x', hx, hs⟩, hxs⟩ := h
    obtain ⟨xs', hxs', hss⟩ := ih hxs
    exact ⟨x' :: xs', by simp [hx, hxs'], followedBy_append hs hss⟩

theorem commas_upTo (h : commas (xs.map (upTo u S)) ts) :
    ∃ xs' : List α, xs'.map u = xs.map u ∧ commas (xs'.map S) ts := by
  induction xs generalizing ts with
  | nil => exact ⟨[], rfl, h⟩
  | cons x xs ih =>
    obtain ⟨us, _, rfl, hc, vs, ws, rfl, ⟨x', hx, hs⟩, hxs⟩ := h
    obtain ⟨xs', hxs', hss⟩ := ih hxs
    exact ⟨x' :: xs', by simp [hx, hxs'], followedBy_append hc (followedBy_append hs hss)⟩

theorem parenthesised_upTo (h : parenthesised (xs.map (upTo u S)) ts) :
    ∃ xs' : List α, xs'.map u = xs.map u ∧ parenthesised (xs'.map S) ts := by
  cases xs with
  | nil => exact ⟨[], rfl, h⟩
  | cons x xs =>
    obtain ⟨us, _, rfl, ho, vs, _, rfl, ⟨x', hx, hs⟩, ws, cs, rfl, hxs, hc⟩ := h
    obtain ⟨xs', hxs', hss⟩ := commas_upTo hxs
    exact ⟨x' :: xs', by simp [hx, hxs'], followedBy_append ho (followedBy_append hs
      (followedBy_append hss hc))⟩

end

end Phrase

/-- The tree is spelled with its nodes at other places. -/
def Expr.SpelledElsewhere : Expr → Phrase := upTo Expr.unplaced Expr.Spelled

theorem Expr.arguments_elsewhere {es : List Expr} {ts : List Token}
    (h : parenthesised (es.map SpelledElsewhere) ts) :
    ∃ es', unplacedAll es' = unplacedAll es ∧ parenthesised (spellings es') ts := by
  simpa only [unplacedAll_eq_map, spellings_eq_map] using parenthesised_upTo h

namespace Writes

theorem literal {value : Literal} (hv : value.WellFormed) :
    Writes false true Stops (Printer.literal value).toList
      (one fun t => Grammar.literal? t = some value) := by
  cases value with
  | nil =>
    exact lexeme (fun _ hr => isLexeme_keyword false .NIL hr) (fun _ _ => rfl) rfl
  | boolean b =>
    cases b with
    | true => exact lexeme (fun _ hr => isLexeme_keyword false .TRUE hr) (fun _ _ => rfl) rfl
    | false => exact lexeme (fun _ hr => isLexeme_keyword false .FALSE hr) (fun _ _ => rfl) rfl
  | character value =>
    obtain ⟨c, hc⟩ := hv
    have hchar := isLexeme_character false c
    refine (lexeme (fun rest _ => hchar rest) (fun _ _ => ?_) rfl).of_eq ?_
    · simp [Grammar.literal?, ← hc]
    · simp [Printer.literal, Text.enclose, hc]
  | string value =>
    have hlexeme (rest : List Char) := isLexeme_string false value.toList rest
    refine (lexeme (fun rest _ => hlexeme rest) (fun _ _ => ?_) rfl).of_eq ?_
    · simp [Grammar.literal?]
    · simp [Printer.literal, Text.enclose]
  | integer value raw =>
    obtain ⟨hw, rfl⟩ := hv
    refine lexeme (fun _ hr => isLexeme_whole hw hr) (fun _ _ => ?_) rfl
    simp [Grammar.literal?, Printer.literal]
  | decimal value raw =>
    obtain ⟨hw, rfl⟩ := hv
    refine lexeme (fun _ hr => isLexeme_fractional hw hr) (fun _ _ => ?_) rfl
    simp [Grammar.literal?, Printer.literal]

theorem point : Writes true false Anything ['.'] (operator ".") := mark '.' rfl rfl rfl

theorem stops_point {id : String} (hid : IsIdentifier id) (rest : List Char) :
    Stops ('.' :: id.toList ++ rest) := by
  obtain ⟨⟨c, cs, hs, hc, -⟩, -⟩ := hid
  refine ⟨by simp; decide, fun ds hds => ?_⟩
  cases hds
  simpa [hs, beginsDigit] using letter_not_digit hc

theorem expr {e : Expr} (he : e.WellFormed) :
    Writes false true Stops e.text e.SpelledElsewhere := by
  induction e with
  | literal p value =>
    refine (literal he).imp ?_
    rintro _ ⟨t, rfl, ht⟩
    exact ⟨.literal t.position value, rfl, t, rfl, ht, rfl⟩
  | group p inner ih =>
    have hopen : Writes false false Anything ['('] (operator "(") := mark '(' rfl rfl rfl
    have hclose : Writes true true Anything [')'] (operator ")") := mark ')' rfl rfl rfl
    have hstop : ∀ rest, Stops ([')'] ++ rest) := fun rest =>
      .of_cons rest rfl (by decide) (by decide)
    refine ((hopen.append_any ((ih he).append hclose fun rest _ => hstop rest)).stop_imp
      fun _ _ => trivial).imp ?_
    rintro _ ⟨_, us, rfl, ⟨t, rfl, ht⟩, vs, ws, rfl, ⟨e', he', hs⟩, hc⟩
    exact ⟨.group t.position e', by simp [Expr.unplaced, he'],
      followedBy_append (one_singleton ⟨ht, rfl⟩) (followedBy_append hs hc)⟩
  | binary p op left right hl hr =>
    obtain ⟨hop, hleft, hright⟩ := he
    have hrest := ((binaryOperator (f := true) hop).blank (c := ' ') rfl).append_any (hr hright)
    refine (((hl hleft).append hrest fun _ _ => .of_blank _ rfl).of_eq (by simp [Expr.text])).imp ?_
    rintro _ ⟨us, _, rfl, ⟨left', hl', hs⟩, vs, ws, rfl, ho, right', hr', hs'⟩
    exact ⟨.binary left'.position op left' right', by simp [Expr.unplaced, hl', hr'],
      followedBy_append hs (followedBy_append ho hs'), rfl⟩
  | name p id =>
    refine (identifier he).imp ?_
    rintro _ ⟨t, rfl, ht⟩
    exact ⟨.name t.position id, rfl, t, rfl, ht, rfl⟩
  | member p receiver id ih =>
    obtain ⟨hreceiver, hid⟩ := he
    refine (((ih hreceiver).append (point.append_any (identifier hid)) fun rest _ => ?_).of_eq
      (by simp [Expr.text])).imp ?_
    · exact stops_point hid rest
    · rintro _ ⟨us, _, rfl, ⟨receiver', hr, hs⟩, hid⟩
      exact ⟨.member receiver'.position receiver' id, by simp [Expr.unplaced, hr],
        followedBy_append hs hid, rfl⟩
  | call p id arguments ih =>
    obtain ⟨hid, hargs⟩ := he
    rw [Expr.allWellFormed_iff] at hargs
    have harguments := parenthesised (f := true) fun e he => ih e he (hargs e he)
    refine ((((identifier hid).append harguments fun rest _ => ?_).of_eq
      (by simp [Expr.text, Expr.texts_eq_map])).stop_imp fun _ _ => trivial).imp ?_
    · exact .of_cons _ rfl (by decide) (by decide)
    · rintro _ ⟨_, us, rfl, ⟨t, rfl, ht⟩, hs⟩
      obtain ⟨arguments', ha, hs'⟩ := Expr.arguments_elsewhere hs
      exact ⟨.call t.position id arguments', by simp [Expr.unplaced, ha],
        followedBy_cons ⟨ht, rfl⟩ hs'⟩
  | methodCall p receiver id arguments hr ih =>
    obtain ⟨hreceiver, hid, hargs⟩ := he
    rw [Expr.allWellFormed_iff] at hargs
    have harguments := parenthesised (f := true) fun e he => ih e he (hargs e he)
    have hcall := (identifier (f := false) hid).append harguments
      fun rest _ => .of_cons _ rfl (by decide) (by decide)
    refine ((((hr hreceiver).append (point.append_any hcall) fun rest _ => ?_).of_eq
      (by simp [Expr.text, Expr.texts_eq_map])).stop_imp fun _ _ => trivial).imp ?_
    · have := stops_point hid (('(' :: separated (arguments.map Expr.text) ++ [')']) ++ rest)
      simpa using this
    · rintro _ ⟨us, _, rfl, ⟨receiver', hrec, hs⟩, _, vs, rfl, hpoint, _, ws, rfl, hname, hargs⟩
      obtain ⟨arguments', ha, hs'⟩ := Expr.arguments_elsewhere hargs
      exact ⟨.methodCall receiver'.position receiver' id arguments',
        by simp [Expr.unplaced, hrec, ha],
        followedBy_append hs (followedBy_append hpoint (followedBy_append hname hs')), rfl⟩
  | unknown => exact he.elim

end Writes

end BlockScript
