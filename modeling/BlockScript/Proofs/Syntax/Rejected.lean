import BlockScript.Proofs.Syntax.Reading
import BlockScript.Proofs.Syntax.Vocabulary
import BlockScript.Proofs.Token.Splitting

/-!
# Rejected texts

Why a text is no program. The lexer finds fault with a quoted literal. A production finds fault with
the first of the tokens that are left, and quotes nothing but its text, which is part of one line.
-/

namespace BlockScript

/-! ## The texts of tokens -/

namespace Lexis

variable {cs raw rest : List Char} {previous last : Option Face} {t : Face} {ts : List Face}

theorem newline_notMem_of_mem_whole (h : raw ∈ whole) : '\n' ∉ raw := by
  obtain ⟨sign, ds, rfl, hsign, -, hds⟩ := mem_whole.mp h
  rw [List.mem_append, not_or]
  refine ⟨?_, fun hn => absurd (hds _ hn).1 (by decide)⟩
  rcases hsign with rfl | rfl | rfl <;> decide

/-- No token goes over the end of a line. -/
theorem Begins.newline_notMem (h : Begins previous cs t rest) : '\n' ∉ t.raw := by
  cases h with
  | integer _ _ hraw => exact newline_notMem_of_mem_whole hraw
  | decimal _ _ hraw =>
    obtain ⟨w, hw, v, hv, rfl⟩ := Language.mem_mul.mp hraw
    obtain ⟨places, rfl, -, hplaces⟩ := mem_fraction.mp hv
    rw [List.mem_append, List.mem_cons, not_or, not_or]
    exact ⟨newline_notMem_of_mem_whole hw, by decide, fun hn => absurd (hplaces _ hn).1 (by decide)⟩
  | keyword word _ _ hraw => exact hraw ▸ isLine_spelling_keyword word
  | identifier _ hlongest _ =>
    obtain ⟨c, v, rfl, hc, hv⟩ := mem_word.mp hlongest.mem
    rw [List.mem_cons, not_or]
    refine ⟨?_, fun hn => absurd (hv _ hn) (by simp [IsLetter, IsDigit])⟩
    rintro rfl
    simp [IsLetter] at hc
  | string hstring =>
    obtain ⟨body, rfl, hbody⟩ := hstring
    simpa using hbody.newline_notMem
  | character hcharacter =>
    obtain ⟨body, rfl, hbody, -⟩ := hcharacter
    simpa using hbody.newline_notMem
  | @operator c _ _ _ _ _ _ hblank hlongest =>
    have hsplit := hlongest.split
    have hne : '\n' ≠ c := fun h => hblank (by simp [IsBlank, ← h])
    rcases mem_operator.mp hlongest.mem with ⟨d, -, rfl⟩ | ⟨d, rfl⟩
    · obtain rfl := (List.cons.inj hsplit).1
      simpa using hne
    · obtain rfl := (List.cons.inj hsplit).1
      simpa using hne

theorem Reads.newline_notMem (h : Reads previous cs ts last rest) : ∀ t ∈ ts, '\n' ∉ t.raw := by
  induction h with
  | done => exact nofun
  | blank _ _ ih => exact ih
  | token ht _ ih => exact List.forall_mem_cons.mpr ⟨ht.newline_notMem, ih⟩

end Lexis

namespace Token

variable {source : String} {tokens : List Token} {d : Diagnostic}

theorem isLine_raw_of_tokenize (h : tokenize source = .ok tokens) : ∀ t ∈ tokens, IsLine t.raw := by
  obtain ⟨ts, last, hreads, hfaces⟩ := Lexis.reads_of_scans (tokenize_eq_ok_iff.mp h)
    Lexis.flag_none
  intro t ht
  have hface : t.face ∈ ts ++ [⟨.endOfInput, [], []⟩] := hfaces ▸ List.mem_map_of_mem ht
  rw [List.mem_append, List.mem_singleton] at hface
  rcases hface with hface | hface
  · exact hreads.newline_notMem t.face hface
  · have hraw : t.raw.toList = [] := congrArg Lexis.Face.raw hface
    simp [IsLine, hraw]

theorem badQuote_of_scan {fuel : Nat} {p : Position} {i : Nat} {f : Bool} {cs : List Char}
    (h : scan fuel p i f cs = .error d) : ∃ flaw j, d.cause = .badQuote flaw j := by
  induction fuel generalizing p i f cs with
  | zero => cases cs <;> cases h
  | succ fuel ih =>
    cases cs with
    | nil => cases h
    | cons c cs =>
      rw [scan] at h
      split_ifs at h with hblank
      · exact ih h
      · cases hl : lexeme f c cs with
        | error flaw =>
          rw [hl] at h
          cases h
          exact ⟨flaw.cause, i + flaw.offset, rfl⟩
        | ok l =>
          rw [hl] at h
          cases hs : scan fuel (p.advance l.raw) (i + l.raw.length)
              (endsOperand l.kind (String.ofList l.value)) l.rest with
          | ok tokens =>
            simp only [hs] at h
            cases h
          | error e =>
            simp only [hs] at h
            cases h
            exact ih hs

end Token

/-! ## Productions -/

/-- The diagnostic stands at the token, and quotes its text or nothing. -/
structure Diagnostic.Blames (d : Diagnostic) (t : Token) : Prop where
  position : d.position = some t.position
  cause : d.cause = .fieldAfterMethod ∨ ∃ what, (∀ w ∈ Expectation.words what, IsLine w) ∧
    d.cause = .unexpected what (if t.kind == .endOfInput then none else some t.raw)

theorem Diagnostic.Blames.family {d : Diagnostic} {t : Token} (h : d.Blames t) :
    d.cause.family = .grammar := by
  rcases h.cause with hc | ⟨what, -, hc⟩ <;> rw [hc] <;> rfl

theorem Diagnostic.Blames.isLine {d : Diagnostic} {t : Token} (h : d.Blames t) (ht : IsLine t.raw) :
    ∀ w ∈ d.cause.words, IsLine w := by
  rcases h.cause with hc | ⟨what, hwhat, hc⟩
  · rw [hc]
    exact nofun
  · rw [hc]
    refine List.forall_mem_append.mpr ⟨hwhat, ?_⟩
    split <;> simp [ht]

namespace Grammar

variable {α β : Type}

/-- The production takes tokens from the front and leaves the others, or it blames the first of the
tokens that it has left. -/
def Proceeds (x : Production α) : Prop := ∀ ts,
  match x ts with
  | .ok r => r.2 <:+ ts
  | .error d => ∃ us, us <:+ ts ∧ d.Blames (front us)

variable {x item : Production α} {nested : Production Expr} {inner : Production Stmt}
  {text : String} {word : Keyword} {what : Expectation}

theorem proceeds_pure (a : α) : Proceeds (pure a : Production α) := List.suffix_refl

theorem Proceeds.bind {f : α → Production β} (hx : Proceeds x) (hf : ∀ a, Proceeds (f a)) :
    Proceeds (x >>= f) := by
  intro ts
  have h := hx ts
  change match x ts >>= fun r => f r.1 r.2 with
    | .ok r => r.2 <:+ ts
    | .error d => ∃ us, us <:+ ts ∧ d.Blames (front us)
  cases hr : x ts with
  | error d =>
    rw [hr] at h
    exact h
  | ok r =>
    rw [hr] at h
    have hfr := hf r.1 r.2
    change match f r.1 r.2 with
      | .ok r => r.2 <:+ ts
      | .error d => ∃ us, us <:+ ts ∧ d.Blames (front us)
    cases hs : f r.1 r.2 with
    | ok s =>
      rw [hs] at hfr
      exact hfr.trans h
    | error d =>
      rw [hs] at hfr
      obtain ⟨us, hus, hd⟩ := hfr
      exact ⟨us, hus.trans h, hd⟩

theorem Proceeds.ite {c : Prop} [Decidable c] {y : Production α} (hx : Proceeds x)
    (hy : Proceeds y) : Proceeds (if c then x else y) := by
  split
  · exact hx
  · exact hy

theorem proceeds_current : Proceeds current := List.suffix_refl

theorem proceeds_advance : Proceeds advance := by
  rintro (_ | ⟨t, ts⟩)
  · exact List.suffix_refl []
  · change (if t.kind == .endOfInput then t :: ts else ts) <:+ t :: ts
    split
    · exact List.suffix_refl _
    · exact List.suffix_cons t ts

theorem proceeds_expected (h : ∀ w ∈ what.words, IsLine w) :
    Proceeds (expected what : Production α) :=
  fun ts => ⟨ts, List.suffix_refl ts, rfl, .inr ⟨what, h, rfl⟩⟩

theorem proceeds_reject_field : Proceeds (reject fun _ => .fieldAfterMethod : Production α) :=
  fun ts => ⟨ts, List.suffix_refl ts, rfl, .inl rfl⟩

theorem proceeds_atOperator : Proceeds (atOperator text) :=
  proceeds_current.bind fun _ => proceeds_pure _

theorem proceeds_atKeyword : Proceeds (atKeyword word) :=
  proceeds_current.bind fun _ => proceeds_pure _

theorem proceeds_operator (h : IsLine text) : Proceeds (operator text) :=
  proceeds_atOperator.bind fun _ => proceeds_advance.ite
    (proceeds_expected (List.forall_mem_singleton.mpr h))

theorem proceeds_keyword : Proceeds (keyword word) :=
  proceeds_atKeyword.bind fun _ => proceeds_advance.ite
    (proceeds_expected (List.forall_mem_singleton.mpr (isLine_spelling_keyword word)))

theorem proceeds_identifier : Proceeds identifier :=
  proceeds_current.bind fun _ =>
    (proceeds_advance.bind fun _ => proceeds_pure _).ite (proceeds_expected nofun)

theorem proceeds_after (hitem : Proceeds item) : Proceeds (after text item) :=
  proceeds_atOperator.bind fun _ =>
    (proceeds_advance.bind fun _ => hitem.bind fun _ => proceeds_pure _).ite (proceeds_pure none)

/-! ### Lists of items -/

theorem proceeds_commaItems (hitem : Proceeds item) (bound : Nat) :
    Proceeds (commaItems item bound) := by
  induction bound with
  | zero => exact proceeds_pure []
  | succ bound ih =>
    exact proceeds_atOperator.bind fun _ =>
      (proceeds_advance.bind fun _ => hitem.bind fun _ => ih.bind fun _ => proceeds_pure _).ite
        (proceeds_pure [])

theorem proceeds_parenthesised (hitem : Proceeds item) (bound : Nat) :
    Proceeds (parenthesised item bound) := by
  refine (proceeds_operator (by decide)).bind fun _ => proceeds_atOperator.bind fun _ =>
    (proceeds_advance.bind fun _ => proceeds_pure []).ite ?_
  exact hitem.bind fun _ => (proceeds_commaItems hitem bound).bind fun _ =>
    (proceeds_operator (by decide)).bind fun _ => proceeds_pure _

theorem proceeds_whileKeyword (hitem : Proceeds item) (bound : Nat) :
    Proceeds (whileKeyword word item bound) := by
  induction bound with
  | zero => exact proceeds_pure []
  | succ bound ih =>
    exact proceeds_atKeyword.bind fun _ =>
      (hitem.bind fun _ => ih.bind fun _ => proceeds_pure _).ite (proceeds_pure [])

/-! ### Expressions -/

theorem proceeds_operands {precedence : Nat} (hnested : Proceeds nested) (bound : Nat)
    (left : Expr) :
    Proceeds (operands precedence nested bound left) := by
  induction bound generalizing left with
  | zero => exact proceeds_pure left
  | succ bound ih =>
    refine proceeds_current.bind fun t => ?_
    cases operatorAt precedence t with
    | none => exact proceeds_pure left
    | some op =>
      exact proceeds_advance.bind fun _ => hnested.bind fun right => ih _

theorem proceeds_chain {precedence : Nat} (hnested : Proceeds nested) (bound : Nat) :
    Proceeds (chain precedence nested bound) :=
  hnested.bind fun left => proceeds_operands hnested bound left

theorem proceeds_members (hnested : Proceeds nested) (bound more : Nat) (e : Expr) :
    Proceeds (members nested bound more e) := by
  induction more generalizing e with
  | zero => exact proceeds_pure e
  | succ more ih =>
    refine proceeds_atOperator.bind fun _ => Proceeds.ite ?_ (proceeds_pure e)
    exact proceeds_advance.bind fun _ => proceeds_identifier.bind fun _ =>
      proceeds_atOperator.bind fun _ =>
        ((proceeds_parenthesised hnested bound).bind fun _ => ih _).ite (ih _)

theorem proceeds_primary (hnested : Proceeds nested) (bound : Nat) :
    Proceeds (primary nested bound) := by
  refine proceeds_current.bind fun t => ?_
  cases literal? t with
  | some value => exact proceeds_advance.bind fun _ => proceeds_pure _
  | none =>
    refine Proceeds.ite ?name (Proceeds.ite ?group (proceeds_expected nofun))
    case name =>
      exact proceeds_advance.bind fun _ => proceeds_atOperator.bind fun _ =>
        ((proceeds_parenthesised hnested bound).bind fun _ => proceeds_pure _).ite (proceeds_pure _)
    case group =>
      exact proceeds_advance.bind fun _ => hnested.bind fun _ =>
        (proceeds_operator (by decide)).bind fun _ => proceeds_pure _

theorem proceeds_secondary (hnested : Proceeds nested) (bound : Nat) :
    Proceeds (secondary nested bound) :=
  (proceeds_primary hnested bound).bind fun e => proceeds_members hnested bound bound e

theorem proceeds_expression (bound : Nat) : Proceeds (expression bound) := by
  induction bound with
  | zero => exact proceeds_expected nofun
  | succ bound ih =>
    have hsecondary := proceeds_secondary ih bound
    exact proceeds_chain (proceeds_chain (proceeds_chain (proceeds_chain hsecondary _) _) _) _

/-! ### Statements -/

theorem proceeds_typeName : Proceeds typeName := proceeds_after proceeds_identifier

theorem proceeds_binding (hnested : Proceeds nested) : Proceeds (binding nested) :=
  proceeds_current.bind fun _ => proceeds_keyword.bind fun _ => proceeds_identifier.bind fun _ =>
    proceeds_typeName.bind fun _ => (proceeds_after hnested).bind fun _ =>
      (proceeds_operator (by decide)).bind fun _ => proceeds_pure _

theorem proceeds_block (hinner : Proceeds inner) (closers : List Keyword) (bound : Nat) :
    Proceeds (block inner closers bound) := by
  have hend {α : Type} : Proceeds (expected (.blockEnd closers) : Production α) :=
    proceeds_expected nofun
  induction bound with
  | zero => exact hend
  | succ bound ih =>
    refine proceeds_current.bind fun _ => (proceeds_pure []).ite (hend.ite ?_)
    exact hinner.bind fun _ => ih.bind fun _ => proceeds_pure _

theorem proceeds_conditional (hnested : Proceeds nested) (hinner : Proceeds inner) (bound : Nat) :
    Proceeds (conditional nested inner bound) := by
  have hblock := fun closers => proceeds_block hinner closers bound
  refine proceeds_current.bind fun _ => proceeds_keyword.bind fun _ => hnested.bind fun _ =>
    proceeds_keyword.bind fun _ => (hblock _).bind fun _ => proceeds_atKeyword.bind fun _ =>
      Proceeds.ite ?otherwise (proceeds_keyword.bind fun _ => proceeds_pure _)
  exact proceeds_advance.bind fun _ => (hblock _).bind fun _ => proceeds_keyword.bind fun _ =>
    proceeds_pure _

theorem proceeds_forLoop (hnested : Proceeds nested) (hinner : Proceeds inner) (bound : Nat) :
    Proceeds (forLoop nested inner bound) :=
  proceeds_current.bind fun _ => proceeds_keyword.bind fun _ => proceeds_identifier.bind fun _ =>
    proceeds_keyword.bind fun _ => hnested.bind fun _ => proceeds_keyword.bind fun _ =>
      (proceeds_block hinner _ bound).bind fun _ => proceeds_keyword.bind fun _ => proceeds_pure _

theorem proceeds_whileLoop (hnested : Proceeds nested) (hinner : Proceeds inner) (bound : Nat) :
    Proceeds (whileLoop nested inner bound) :=
  proceeds_current.bind fun _ => proceeds_keyword.bind fun _ => hnested.bind fun _ =>
    proceeds_keyword.bind fun _ => (proceeds_block hinner _ bound).bind fun _ =>
      proceeds_keyword.bind fun _ => proceeds_pure _

theorem proceeds_ret (hnested : Proceeds nested) : Proceeds (ret nested) :=
  proceeds_current.bind fun _ => proceeds_keyword.bind fun _ => hnested.bind fun _ =>
    (proceeds_operator (by decide)).bind fun _ => proceeds_pure _

theorem proceeds_simple (hnested : Proceeds nested) : Proceeds (simple nested) := by
  refine proceeds_current.bind fun _ => hnested.bind fun _ => (proceeds_after hnested).bind
    fun right =>
    (proceeds_operator (by decide)).bind fun _ => ?_
  cases right <;> exact proceeds_pure _

theorem proceeds_statement (bound : Nat) : Proceeds (statement bound) := by
  induction bound with
  | zero => exact proceeds_expected nofun
  | succ bound ih =>
    have hexpression := proceeds_expression (bound + 1)
    refine proceeds_current.bind fun _ => ?_
    split
    · exact (proceeds_binding hexpression).bind fun _ => proceeds_pure _
    · exact proceeds_conditional hexpression ih bound
    · exact proceeds_forLoop hexpression ih bound
    · exact proceeds_whileLoop hexpression ih bound
    · exact proceeds_ret hexpression
    · exact proceeds_simple hexpression

/-! ### Programs -/

theorem proceeds_param : Proceeds param :=
  proceeds_current.bind fun _ => proceeds_identifier.bind fun _ => proceeds_typeName.bind fun _ =>
    proceeds_pure _

theorem proceeds_method (bound : Nat) : Proceeds (method bound) :=
  proceeds_current.bind fun _ => proceeds_keyword.bind fun _ => proceeds_identifier.bind fun _ =>
    (proceeds_parenthesised proceeds_param bound).bind fun _ => proceeds_typeName.bind fun _ =>
      proceeds_keyword.bind fun _ => (proceeds_block (proceeds_statement bound) _ bound).bind fun _ =>
        proceeds_keyword.bind fun _ => proceeds_pure _

theorem proceeds_program (bound : Nat) : Proceeds (program bound) :=
  (proceeds_whileKeyword (proceeds_binding (proceeds_expression bound)) bound).bind fun _ =>
    (proceeds_whileKeyword (proceeds_method bound) bound).bind fun _ =>
      proceeds_current.bind fun _ =>
      (proceeds_pure _).ite (proceeds_reject_field.ite (proceeds_expected nofun))

end Grammar

/-! ## Programs -/

namespace Program

open Grammar (front)

variable {source : String} {tokens : List Token} {d : Diagnostic}

theorem blames_of_ofTokens (h : Program.ofTokens tokens = .error d) :
    ∃ us, us <:+ tokens ∧ d.Blames (front us) := by
  have hproceeds := Grammar.proceeds_program tokens.length tokens
  change ((Grammar.program tokens.length tokens).map Prod.fst) = .error d at h
  cases hr : Grammar.program tokens.length tokens with
  | ok r => rw [hr] at h; cases h
  | error e =>
    rw [hr] at h hproceeds
    cases h
    exact hproceeds

/-- A text is rejected for one of its literals, or for a token that no program goes on with. -/
theorem badQuote_or_blames_of_parse (h : Program.parse source = .error d) :
    (∃ flaw i, d.cause = .badQuote flaw i) ∨
      ∃ tokens us, Token.tokenize source = .ok tokens ∧ us <:+ tokens ∧ d.Blames (front us) := by
  unfold Program.parse at h
  cases ht : Token.tokenize source with
  | error e =>
    rw [ht] at h
    cases h
    exact .inl (Token.badQuote_of_scan ht)
  | ok tokens =>
    rw [ht] at h
    obtain ⟨us, hus, hd⟩ := blames_of_ofTokens h
    exact .inr ⟨tokens, us, rfl, hus, hd⟩

/-- Why a text is rejected is told in one line, unless a literal has a backslash before the end of a
line. -/
theorem isLine_message_of_parse (h : Program.parse source = .error d) :
    IsLine d.message ↔ ∀ i, d.cause ≠ .badQuote (.invalidEscape '\n') i := by
  rw [d.isLine_message]
  rcases badQuote_or_blames_of_parse h with ⟨flaw, i, hc⟩ | ⟨tokens, us, ht, hus, hd⟩
  · rw [hc]
    cases flaw with
    | invalidEscape c => simp [Cause.words, QuoteFlaw.words, IsLine, eq_comm]
    | _ => simp [Cause.words, QuoteFlaw.words]
  · have hfront : IsLine (front us).raw := by
      cases us with
      | nil => simp [front, Token.endAt, IsLine]
      | cons t us => exact Token.isLine_raw_of_tokenize ht t (hus.subset List.mem_cons_self)
    refine iff_of_true (hd.isLine hfront) fun i hi => ?_
    have hfamily := hd.family
    rw [hi] at hfamily
    cases hfamily

end Program

end BlockScript
