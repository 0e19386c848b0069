import BlockScript.Proofs.Syntax.Writing

/-!
# Writing programs

The text of a statement, a method or a program is read as tokens that spell it at other places.
-/

namespace BlockScript

open Token Phrase

/-- A binding without its places. -/
def Binding.unplaced (b : Binding) : Binding := b.map Expr.unplaced fun _ => .start

@[inherit_doc Binding.unplaced]
def Stmt.unplaced (s : Stmt) : Stmt := s.map Expr.unplaced fun _ => .start

@[inherit_doc Binding.unplaced]
def Param.unplaced (p : Param) : Param := p.map fun _ => .start

@[inherit_doc Binding.unplaced]
def Method.unplaced (m : Method) : Method := m.map Expr.unplaced fun _ => .start

/-- The statements of a body are spelled at other places. -/
def Stmt.BodyElsewhere (ss : List Stmt) : Phrase :=
  upTo (Stmt.mapAll Expr.unplaced fun _ => .start) (fun ss => all (spellings ss)) ss

theorem Stmt.body_elsewhere {ss : List Stmt} {ts : List Token}
    (h : all (ss.map (upTo unplaced Spelled)) ts) : BodyElsewhere ss ts := by
  obtain ⟨ss', hss, hs⟩ := all_upTo h
  rw [← spellings_eq_map] at hs
  refine ⟨ss', ?_, hs⟩
  rw [mapAll_eq_map, mapAll_eq_map]
  exact hss

namespace Writes

variable {f g : Bool} {stop : List Char → Prop} {cs : List Char} {P : Phrase}

theorem line (depth : Nat) (hw : Writes f g stop cs P) (hs : ∀ rest, stop ('\n' :: rest)) :
    Writes f g Anything (lineText depth cs) P :=
  ((hw.blank_end (c := '\n') rfl hs).blanks (4 * depth)).of_eq (by simp [lineText])

theorem all {α : Type} {text : α → List Char} {P : α → Phrase} {xs : List α}
    (hxs : ∀ x ∈ xs, Writes false false Anything (text x) (P x)) :
    Writes false false Anything (xs.flatMap text) (all (xs.map P)) := by
  induction xs with
  | nil => exact nil
  | cons x xs ih =>
    obtain ⟨hx, hxs⟩ := List.forall_mem_cons.mp hxs
    exact hx.append_any (ih hxs)

/-! ## Parts of statements -/

theorem semicolon : Writes f false Anything [';'] (operator ";") := mark ';' rfl rfl rfl

theorem stops_semicolon (rest : List Char) : Stops ([';'] ++ rest) :=
  .of_cons rest rfl (by decide) (by decide)

/-- An equals sign between blanks. -/
theorem equals : Writes f false Anything [' ', '=', ' '] (operator "=") := by
  have heq : Writes f false (fun rest => ∃ ds, rest = ' ' :: ds) ['='] (operator "=") := by
    refine lexeme (k := .operator) (v := ['=']) ?_ (fun _ _ => rfl) rfl
    rintro _ ⟨rest, rfl⟩
    exact isLexeme_mark f rfl (.inl rfl) (by simp)
  exact (heq.blank_end (c := ' ') rfl fun rest => ⟨rest, rfl⟩).blank rfl

theorem typeName {type : Option String} (ht : ∀ id ∈ type, IsIdentifier id) :
    Writes true true Stops (typeText type) (typeName type) := by
  cases type with
  | none => exact nil
  | some id =>
    have hcolon : Writes true false Anything [':'] (operator ":") := mark ':' rfl rfl rfl
    have hid : Writes false true Stops id.toList (Phrase.identifier id) := identifier (ht id rfl)
    exact (hcolon.append_any (hid.blank (c := ' ') rfl)).of_eq
      (by simp [typeText, Printer.typeSuffix])

theorem stops_typeText (type : Option String) {rest : List Char} (hr : Stops rest) :
    Stops (typeText type ++ rest) := by
  cases type with
  | none => exact hr
  | some id =>
    have htext : typeText (some id) = ':' :: ' ' :: id.toList := by
      simp [typeText, Printer.typeSuffix]
    rw [htext]
    exact .of_cons _ rfl (by decide) (by decide)

theorem initial {value : Option Expr} (hv : ∀ e ∈ value, e.WellFormed) :
    Writes true true Stops (Expr.valueText value)
      (upTo (Option.map Expr.unplaced) (fun v => initial (v.map Expr.Spelled)) value) := by
  cases value with
  | none => exact nil.imp fun ts hts => ⟨none, rfl, hts⟩
  | some e =>
    refine (equals.append_any (expr (hv e rfl))).imp ?_
    rintro _ ⟨us, vs, rfl, ho, e', he, hs⟩
    exact ⟨some e', by simp [he], followedBy_append ho hs⟩

theorem stops_valueText (value : Option Expr) (rest : List Char) :
    Stops (Expr.valueText value ++ ([';'] ++ rest)) := by
  cases value with
  | none => exact stops_semicolon rest
  | some e => exact .of_blank _ rfl

theorem binding {b : Binding} (hb : b.Consists Expr.WellFormed IsIdentifier) :
    Writes f false Anything b.text (upTo Binding.unplaced Binding.Spelled b) := by
  obtain ⟨hname, htype, hvalue⟩ := hb
  have hlet : Writes f false Anything "LET ".toList (Phrase.keyword .LET) :=
    keyword_blank (c := ' ') rfl rfl rfl
  have hinit := (initial hvalue).append semicolon fun rest _ => stops_semicolon rest
  have htype' := (typeName htype).append hinit fun rest _ => by
    simpa using stops_valueText b.value rest
  have hname' := (identifier (f := false) hname).append htype' fun rest _ => by
    simpa using stops_typeText b.type (stops_valueText b.value rest)
  refine ((hlet.append_any hname').of_eq (by simp [Binding.text])).imp ?_
  rintro _ ⟨_, us, rfl, ⟨l, rfl, hl⟩, vs, _, rfl, hid, ws, _, rfl, ht, xs, ys, rfl, ⟨value, hv, hs⟩, hc⟩
  refine ⟨⟨l.position, b.name, b.type, value⟩, ?_, ?_⟩
  · simp [Binding.unplaced, Binding.map, hv]
  · exact followedBy_append (one_singleton ⟨hl, rfl⟩) (followedBy_append hid
      (followedBy_append ht (followedBy_append hs hc)))

/-! ## Statements -/

/-- A line that is one reserved word. -/
theorem keyword_line (depth : Nat) (w : Keyword)
    (hg : endsOperand (.keyword w) w.spelling = false) :
    Writes f false Anything (lineText depth w.spelling.toList) (Phrase.keyword w) :=
  (keyword rfl hg).line depth fun rest => .of_blank rest rfl

/-- The end of the first line of a block. -/
theorem opening : Writes true false Anything " DO\n".toList (Phrase.keyword .DO) :=
  (keyword_blank (c := '\n') rfl rfl rfl).blank (c := ' ') rfl

theorem opening_stops (rest : List Char) : Stops (" DO\n".toList ++ rest) := .of_blank _ rfl

theorem body {depth : Nat} {ss : List Stmt}
    (h : ∀ s ∈ ss, Writes false false Anything (s.text depth) (upTo Stmt.unplaced Stmt.Spelled s)) :
    Writes false false Anything (Stmt.textAll depth ss) (Stmt.BodyElsewhere ss) := by
  rw [Stmt.textAll_eq_flatMap]
  exact (all h).imp fun _ => Stmt.body_elsewhere

theorem ending (depth : Nat) :
    Writes false false Anything (lineText depth "END".toList) (Phrase.keyword .END) :=
  keyword_line depth .END rfl

theorem alternative (depth : Nat) {ss : List Stmt}
    (h : Writes false false Anything (Stmt.textAll (depth + 1) ss) (Stmt.BodyElsewhere ss)) :
    Writes false false Anything
      ((if ss.isEmpty then [] else lineText depth "ELSE".toList ++ Stmt.textAll (depth + 1) ss) ++
        lineText depth "END".toList)
      (upTo (Stmt.mapAll Expr.unplaced fun _ => .start)
        (fun ss => alternative (ss = []) (Phrase.all (Stmt.spellings ss))) ss) := by
  cases ss with
  | nil => exact (ending depth).imp fun ts hts => ⟨[], rfl, .inl ⟨rfl, hts⟩⟩
  | cons s ss =>
    have helse : Writes false false Anything (lineText depth "ELSE".toList)
      (Phrase.keyword .ELSE) :=
      keyword_line depth .ELSE rfl
    refine ((helse.append_any (h.append_any (ending depth))).of_eq (by simp)).imp ?_
    rintro _ ⟨us, _, rfl, he, vs, ws, rfl, ⟨ss', hss, hs⟩, hn⟩
    exact ⟨ss', hss, .inr (followedBy_append he (followedBy_append hs hn))⟩

theorem stmt {s : Stmt} (hs : s.Consists Expr.WellFormed IsIdentifier) (depth : Nat) :
    Writes false false Anything (s.text depth) (upTo Stmt.unplaced Stmt.Spelled s) := by
  induction s generalizing depth with
  | expression p value =>
    have hvalue := (expr hs).append semicolon fun rest _ => stops_semicolon rest
    refine (hvalue.line depth fun _ => trivial).imp ?_
    rintro _ ⟨us, vs, rfl, ⟨e, he, hs⟩, hc⟩
    exact ⟨.expression e.position e, by simp [Stmt.unplaced, Stmt.map, he],
      followedBy_append hs hc, rfl⟩
  | declare b =>
    refine ((binding hs).line depth fun _ => trivial).imp ?_
    rintro ts ⟨b', hb, hs⟩
    exact ⟨.declare b', congrArg Stmt.declare hb, hs⟩
  | assign p target value =>
    have hvalue := (expr hs.2).append semicolon fun rest _ => stops_semicolon rest
    have htarget := (expr hs.1).append (equals.append_any hvalue) fun _ _ => .of_blank _ rfl
    refine ((htarget.line depth fun _ => trivial).of_eq (by simp [Stmt.text])).imp ?_
    rintro _ ⟨us, _, rfl, ⟨e, he, hs⟩, vs, _, rfl, ho, ws, xs, rfl, ⟨e', he', hs'⟩, hc⟩
    exact ⟨.assign e.position e e', by simp [Stmt.unplaced, Stmt.map, he, he'],
      followedBy_append hs (followedBy_append ho (followedBy_append hs' hc)), rfl⟩
  | conditional p condition thenBody elseBody iht ihe =>
    obtain ⟨hc, ht, he⟩ := hs
    rw [Stmt.allConsist_iff] at ht he
    have hif : Writes false false Anything "IF ".toList (Phrase.keyword .IF) :=
      keyword_blank (c := ' ') rfl rfl rfl
    have halt := alternative depth (body fun s hs => ihe s hs (he s hs) (depth + 1))
    have hthen := (body fun s hs => iht s hs (ht s hs) (depth + 1)).append_any halt
    have hcond := (expr hc).append (opening.append_any hthen) fun rest _ => by
      simpa using opening_stops _
    refine (((hif.append_any hcond).blanks (4 * depth)).of_eq
      (by simp [Stmt.text, lineText])).imp ?_
    rintro _ ⟨_, us, rfl, ⟨i, rfl, hi⟩, vs, _, rfl, ⟨c', hc', hs⟩, ws, _, rfl, hd, xs, ys, rfl,
      ⟨thenBody', ht', hs'⟩, elseBody', he', hs''⟩
    refine ⟨.conditional i.position c' thenBody' elseBody', ?_, ?_⟩
    · simp [Stmt.unplaced, Stmt.map, hc', ht', he']
    · exact followedBy_append (one_singleton ⟨hi, rfl⟩) (followedBy_append hs
        (followedBy_append hd (followedBy_append hs' hs'')))
  | forLoop p name iterable ss ih =>
    obtain ⟨hn, hi, hss⟩ := hs
    rw [Stmt.allConsist_iff] at hss
    have hfor : Writes false false Anything "FOR ".toList (Phrase.keyword .FOR) :=
      keyword_blank (c := ' ') rfl rfl rfl
    have hin : Writes true false Anything " IN ".toList (Phrase.keyword .IN) :=
      (keyword_blank (c := ' ') rfl rfl rfl).blank (c := ' ') rfl
    have hbody := (body fun s hs => ih s hs (hss s hs) (depth + 1)).append_any (ending depth)
    have hiter := (expr hi).append (opening.append_any hbody) fun rest _ => by
      simpa using opening_stops _
    have hname := (identifier (f := false) hn).append (hin.append_any hiter)
      fun _ _ => .of_blank _ rfl
    refine (((hfor.append_any hname).blanks (4 * depth)).of_eq
      (by simp [Stmt.text, lineText])).imp ?_
    rintro _ ⟨_, us, rfl, ⟨k, rfl, hk⟩, vs, _, rfl, hid, ws, _, rfl, hin, xs, _, rfl,
      ⟨e, he, hs⟩, ys, _, rfl, hd, zs, _, rfl, ⟨ss', hss', hs'⟩, hend⟩
    refine ⟨.forLoop k.position name e ss', by simp [Stmt.unplaced, Stmt.map, he, hss'], ?_⟩
    exact followedBy_append (one_singleton ⟨hk, rfl⟩) (followedBy_append hid
      (followedBy_append hin (followedBy_append hs (followedBy_append hd
        (followedBy_append hs' hend)))))
  | whileLoop p condition ss ih =>
    obtain ⟨hc, hss⟩ := hs
    rw [Stmt.allConsist_iff] at hss
    have hwhile : Writes false false Anything "WHILE ".toList (Phrase.keyword .WHILE) :=
      keyword_blank (c := ' ') rfl rfl rfl
    have hbody := (body fun s hs => ih s hs (hss s hs) (depth + 1)).append_any (ending depth)
    have hcond := (expr hc).append (opening.append_any hbody) fun rest _ => by
      simpa using opening_stops _
    refine (((hwhile.append_any hcond).blanks (4 * depth)).of_eq
      (by simp [Stmt.text, lineText])).imp ?_
    rintro _ ⟨_, us, rfl, ⟨k, rfl, hk⟩, vs, _, rfl, ⟨e, he, hs⟩, ys, _, rfl, hd, zs, _, rfl,
      ⟨ss', hss', hs'⟩, hend⟩
    refine ⟨.whileLoop k.position e ss', by simp [Stmt.unplaced, Stmt.map, he, hss'], ?_⟩
    exact followedBy_append (one_singleton ⟨hk, rfl⟩) (followedBy_append hs
      (followedBy_append hd (followedBy_append hs' hend)))
  | ret p value =>
    have hreturn : Writes false false Anything "RETURN ".toList (Phrase.keyword .RETURN) :=
      keyword_blank (c := ' ') rfl rfl rfl
    have hvalue := (expr hs).append semicolon fun rest _ => stops_semicolon rest
    refine (((hreturn.append_any hvalue).line depth fun _ => trivial).of_eq
      (by simp [Stmt.text])).imp ?_
    rintro _ ⟨_, us, rfl, ⟨k, rfl, hk⟩, vs, ws, rfl, ⟨e, he, hs⟩, hc⟩
    exact ⟨.ret k.position e, by simp [Stmt.unplaced, Stmt.map, he],
      followedBy_append (one_singleton ⟨hk, rfl⟩) (followedBy_append hs hc)⟩
  | unknown => exact hs.elim

/-! ## Programs -/

theorem param {p : Param} (hp : p.Consists IsIdentifier) :
    Writes false true Stops p.text (upTo Param.unplaced Param.Spelled p) := by
  obtain ⟨hname, htype⟩ := hp
  refine ((identifier hname).append (typeName htype) fun _ => stops_typeText p.type).imp ?_
  rintro _ ⟨_, us, rfl, ⟨i, rfl, hi⟩, ht⟩
  exact ⟨⟨i.position, p.name, p.type⟩, rfl, followedBy_append (one_singleton ⟨hi, rfl⟩) ht⟩

theorem method {m : Method} (hm : m.Consists Expr.WellFormed IsIdentifier) :
    Writes false false Anything m.text (upTo Method.unplaced Method.Spelled m) := by
  obtain ⟨hname, hparams, htype, hbody⟩ := hm
  rw [Stmt.allConsist_iff] at hbody
  have hdef : Writes false false Anything "DEF ".toList (Phrase.keyword .DEF) :=
    keyword_blank (c := ' ') rfl rfl rfl
  have hss := (body fun s hs => stmt (hbody s hs) 1).append_any (ending 0)
  have htype' := (typeName htype).append (opening.append_any hss) fun rest _ => by
    simpa using opening_stops _
  have hps := (parenthesised (f := true) fun p hp => param (hparams p hp)).append_any htype'
  have hname' := (identifier (f := false) hname).append hps
    fun rest _ => .of_cons _ rfl (by decide) (by decide)
  refine ((hdef.append_any hname').of_eq (by simp [Method.text])).imp ?_
  rintro _ ⟨_, us, rfl, ⟨k, rfl, hk⟩, vs, _, rfl, hid, ws, _, rfl, hp, xs, _, rfl, ht, ys, _, rfl,
    hd, zs, _, rfl, ⟨body', hb, hs⟩, hend⟩
  obtain ⟨params', hp', hs'⟩ := parenthesised_upTo hp
  refine ⟨⟨k.position, m.name, params', m.returnType, body'⟩, ?_, ?_⟩
  · have hparams : params'.map (Param.map fun _ => .start) =
      m.params.map (Param.map fun _ => .start) :=
      hp'
    simp [Method.unplaced, Method.map, hparams, hb]
  · exact followedBy_append (one_singleton ⟨hk, rfl⟩) (followedBy_append hid
      (followedBy_append hs' (followedBy_append ht (followedBy_append hd
        (followedBy_append hs hend)))))

theorem methods {ms : List Method} (h : ∀ m ∈ ms, m.Consists Expr.WellFormed IsIdentifier)
    (first : Bool) : Writes false false Anything (Method.texts first ms)
      (Phrase.all (ms.map (upTo Method.unplaced Method.Spelled))) := by
  induction ms generalizing first with
  | nil => exact nil
  | cons m ms ih =>
    obtain ⟨hm, hms⟩ := List.forall_mem_cons.mp h
    have hall := (method hm).append_any (ih hms false)
    cases first with
    | true => exact hall.of_eq (by simp [Method.texts])
    | false => exact (hall.blank (c := '\n') rfl).of_eq (by simp [Method.texts])

theorem program {p : Program} (hp : p.WellFormed) :
    Writes false false Anything p.text (upTo Program.unplaced Program.Spelled p) := by
  have hfields := all fun b hb => (binding (f := false) (hp.1 b hb)).line 0 fun _ => trivial
  refine (hfields.append_any (methods hp.2 p.fields.isEmpty)).imp ?_
  rintro _ ⟨us, vs, rfl, hf, hm⟩
  obtain ⟨fields, hf', hsf⟩ := all_upTo hf
  obtain ⟨methods, hm', hsm⟩ := all_upTo hm
  exact ⟨⟨fields, methods⟩, congrArg₂ Program.mk hf' hm', followedBy_append hsf hsm⟩

end Writes

/-- The text of a well-formed program is read as tokens that spell it at other places. -/
theorem Program.tokenize_text {p : Program} (hp : p.WellFormed) :
    ∃ (q : Program) (used : List Token), q.unplaced = p.unplaced ∧ q.Spelled used ∧ ∃ place index,
      Token.tokenize (String.ofList p.text) = .ok (used ++ [endAt place index]) := by
  obtain ⟨used, ⟨q, hq, hs⟩, hscan⟩ := Writes.program hp .start 0 [] trivial
  refine ⟨q, used, hq, hs, Position.start.advance p.text, 0 + p.text.length, ?_⟩
  rw [tokenize_eq_ok_iff]
  simpa using hscan _ (.done _ _ _)

end BlockScript
