import BlockScript.Proofs.Syntax.Everywhere

/-!
# Layout

The text of a tree as it stands, without a thought for parentheses. The printer writes a well-formed
tree as the text of its grouped form.
-/

namespace BlockScript

/-- Texts with a comma and a blank between any two. -/
def separated (texts : List (List Char)) : List Char := [',', ' '].intercalate texts

/-- A line of a block at the given depth. -/
def lineText (depth : Nat) (text : List Char) : List Char :=
  List.replicate (4 * depth) ' ' ++ text ++ ['\n']

@[simp] theorem lineText_zero (text : List Char) : lineText 0 text = text ++ ['\n'] := rfl

def typeText (type : Option String) : List Char := (Printer.typeSuffix type).toList

namespace Expr

mutual

def text : Expr → List Char
  | .literal _ value => (Printer.literal value).toList
  | .group _ inner => '(' :: inner.text ++ [')']
  | .binary _ op left right => left.text ++ ' ' :: op.spelling.toList ++ ' ' :: right.text
  | .name _ id => id.toList
  | .member _ receiver id => receiver.text ++ '.' :: id.toList
  | .call _ id arguments => id.toList ++ '(' :: separated (texts arguments) ++ [')']
  | .methodCall _ receiver id arguments =>
    receiver.text ++ '.' :: id.toList ++ '(' :: separated (texts arguments) ++ [')']
  | .unknown .. => []

def texts : List Expr → List (List Char)
  | [] => []
  | e :: es => e.text :: texts es

end

theorem texts_eq_map (es : List Expr) : texts es = es.map text := by
  induction es with
  | nil => rfl
  | cons e es ih => simp [texts, ih]

@[simp] theorem text_unplaced (e : Expr) : e.unplaced.text = e.text := by
  induction e with
  | literal | name | unknown => rfl
  | group p inner ih => simp [unplaced, text, ih]
  | binary p op left right hl hr => simp [unplaced, text, hl, hr]
  | member p receiver id ih => simp [unplaced, text, ih]
  | call p id arguments ih =>
    simp only [unplaced, text, texts_eq_map, unplacedAll_eq_map, List.map_map, Function.comp_def]
    rw [List.map_congr_left ih]
  | methodCall p receiver id arguments hr ih =>
    simp only [unplaced, text, texts_eq_map, unplacedAll_eq_map, List.map_map, Function.comp_def,
      hr]
    rw [List.map_congr_left ih]

/-- The text of an initial value. -/
def valueText : Option Expr → List Char
  | some e => " = ".toList ++ e.text
  | none => []

end Expr

def Binding.text (b : Binding) : List Char :=
  "LET ".toList ++ b.name.toList ++ typeText b.type ++ Expr.valueText b.value ++ [';']

namespace Stmt

mutual

def text (depth : Nat) : Stmt → List Char
  | .expression _ value => lineText depth (value.text ++ [';'])
  | .declare b => lineText depth b.text
  | .assign _ target value => lineText depth (target.text ++ " = ".toList ++ value.text ++ [';'])
  | .conditional _ condition thenBody elseBody =>
    lineText depth ("IF ".toList ++ condition.text ++ " DO".toList) ++
      textAll (depth + 1) thenBody ++
      (if elseBody.isEmpty then [] else lineText depth "ELSE".toList ++
        textAll (depth + 1) elseBody)
      ++ lineText depth "END".toList
  | .forLoop _ name iterable body =>
    lineText depth
        ("FOR ".toList ++ name.toList ++ " IN ".toList ++ iterable.text ++ " DO".toList) ++
      textAll (depth + 1) body ++ lineText depth "END".toList
  | .whileLoop _ condition body =>
    lineText depth ("WHILE ".toList ++ condition.text ++ " DO".toList) ++
      textAll (depth + 1) body ++ lineText depth "END".toList
  | .ret _ value => lineText depth ("RETURN ".toList ++ value.text ++ [';'])
  | .unknown .. => []

def textAll (depth : Nat) : List Stmt → List Char
  | [] => []
  | s :: rest => text depth s ++ textAll depth rest

end

theorem textAll_eq_flatMap (depth : Nat) (ss : List Stmt) :
    textAll depth ss = ss.flatMap (text depth) := by
  induction ss with
  | nil => rfl
  | cons s ss ih => simp [textAll, ih]

end Stmt

def Param.text (p : Param) : List Char := p.name.toList ++ typeText p.type

def Method.text (m : Method) : List Char :=
  lineText 0 ("DEF ".toList ++ m.name.toList ++ '(' :: separated (m.params.map Param.text) ++
    ')' :: typeText m.returnType ++ " DO".toList) ++
  Stmt.textAll 1 m.body ++ lineText 0 "END".toList

/-- The methods, an empty line before each that is not the first thing in the text. -/
def Method.texts : (first : Bool) → List Method → List Char
  | _, [] => []
  | first, m :: ms => (if first then [] else ['\n']) ++ m.text ++ texts false ms

def Program.text (p : Program) : List Char :=
  p.fields.flatMap (fun b => lineText 0 b.text) ++ Method.texts p.fields.isEmpty p.methods

/-! ## The printer -/

namespace Printer

theorem parenthesise_eq (needed : Bool) (e : Expr) :
    parenthesise needed (String.ofList e.text) = String.ofList (e.groupIf needed).text := by
  rw [← String.toList_inj]
  cases needed
  · simp [parenthesise]
  · simp [parenthesise, Expr.text]

theorem precedence_eq {e : Expr} (h : e.WellFormed) : precedence e = .ok e.strength := by
  cases e with
  | binary p op left right =>
    have hop : op.precedence? ≠ none := by
      have := h.1
      revert this
      cases op <;> simp [Operator.known, Operator.precedence?]
    obtain ⟨n, hn⟩ := Option.ne_none_iff_exists'.mp hop
    simp [precedence, Expr.strength, Operator.strength, hn]
  | _ => rfl

theorem exprs_eq {es : List Expr}
    (h : ∀ e ∈ es, expr e = .ok (String.ofList e.grouped.text)) :
    exprs es = .ok (es.map fun e => String.ofList e.grouped.text) := by
  induction es with
  | nil => rfl
  | cons e es ih =>
    have he := h e (by simp)
    have hes := ih fun d hd => h d (by simp [hd])
    simp only [exprs, he, hes]
    rfl

theorem ok_of_toList {s : String} {cs : List Char} (h : s.toList = cs) :
    (Except.ok s : Except Misuse String) = .ok (String.ofList cs) := by
  simp [← h]

theorem expr_eq {e : Expr} (h : e.WellFormed) : expr e = .ok (String.ofList e.grouped.text) := by
  induction e with
  | literal p value => simp [expr, Expr.grouped, Expr.text]
  | name p id => simp [expr, Expr.grouped, Expr.text]
  | unknown => exact h.elim
  | group p inner ih =>
    simp only [expr, ih h]
    apply ok_of_toList
    simp [parenthesise, Expr.grouped, Expr.text]
  | binary p op left right hl hr =>
    have hp : precedence (.binary p op left right) = .ok op.strength := precedence_eq h
    simp only [expr, hp, precedence_eq h.2.1, precedence_eq h.2.2, hl h.2.1, hr h.2.2]
    apply ok_of_toList
    simp [parenthesise_eq, Expr.grouped, Expr.text]
  | member p receiver id ih =>
    simp only [expr, ih h.1, ← Expr.isOperation_grouped receiver]
    apply ok_of_toList
    simp [parenthesise_eq, Expr.grouped, Expr.text]
  | call p id arguments ih =>
    have hargs := (Expr.allWellFormed_iff arguments).mp h.2
    simp only [expr, exprs_eq fun e he => ih e he (hargs e he)]
    apply ok_of_toList
    simp [separated, Expr.grouped, Expr.text, Expr.groupedAll_eq_map, Expr.texts_eq_map,
      Function.comp_def]
  | methodCall p receiver id arguments hr ih =>
    have hargs := (Expr.allWellFormed_iff arguments).mp h.2.2
    simp only [expr, hr h.1, exprs_eq fun e he => ih e he (hargs e he)]
    apply ok_of_toList
    simp [separated, parenthesise_eq, Expr.grouped, Expr.text, Expr.groupedAll_eq_map,
      Expr.texts_eq_map, Function.comp_def]

/-! ## Lines -/

/-- Lines as one text, each ended by a line feed. -/
def unlines (lines : List String) : List Char := lines.flatMap fun l => l.toList ++ ['\n']

@[simp] theorem unlines_nil : unlines [] = [] := rfl

@[simp] theorem unlines_append (ls ms : List String) :
    unlines (ls ++ ms) = unlines ls ++ unlines ms := by simp [unlines]

theorem unlines_cons (l : String) (ls : List String) :
    unlines (l :: ls) = l.toList ++ '\n' :: unlines ls := by simp [unlines]

@[simp] theorem unlines_line (depth : Nat) (text : String) (ls : List String) :
    unlines (line depth text :: ls) = lineText depth text.toList ++ unlines ls := by
  simp [unlines, line, lineText]

/-- What the printer makes of something is lines that together are the text `cs`. -/
def Prints (x : Except Misuse (List String)) (cs : List Char) : Prop :=
  ∃ lines, x = .ok lines ∧ unlines lines = cs

theorem binding_eq {b : Binding} {N : String → Prop} (h : b.Consists Expr.WellFormed N) :
    binding b = .ok (String.ofList (b.map Expr.grouped id).text) := by
  obtain ⟨p, name, type, value⟩ := b
  cases value with
  | none =>
    apply ok_of_toList
    simp [Binding.map, Binding.text, Expr.valueText, typeText]
  | some e =>
    simp only [binding, expr_eq (h.2.2 e rfl)]
    apply ok_of_toList
    simp [Binding.map, Binding.text, Expr.valueText, typeText]

theorem prints_stmts {depth : Nat} {ss : List Stmt}
    (h : ∀ s ∈ ss, Prints (stmt depth s) ((s.map Expr.grouped id).text depth)) :
    Prints (stmts depth ss) (Stmt.textAll depth (Stmt.mapAll Expr.grouped id ss)) := by
  induction ss with
  | nil => exact ⟨[], rfl, rfl⟩
  | cons s ss ih =>
    obtain ⟨ls, hls, hs⟩ := h s (by simp)
    obtain ⟨ms, hms, hss⟩ := ih fun t ht => h t (by simp [ht])
    refine ⟨ls ++ ms, by simp only [stmts, hls, hms]; rfl, ?_⟩
    simp [hs, hss, Stmt.mapAll, Stmt.textAll]

theorem prints_stmt {N : String → Prop} {s : Stmt} (h : s.Consists Expr.WellFormed N)
    (depth : Nat) : Prints (stmt depth s) ((s.map Expr.grouped id).text depth) := by
  induction s generalizing depth with
  | expression p value =>
    refine ⟨_, by simp only [stmt, expr_eq h]; rfl, ?_⟩
    simp [Stmt.map, Stmt.text]
  | declare b =>
    refine ⟨_, by simp only [stmt, binding_eq h]; rfl, ?_⟩
    simp [Stmt.map, Stmt.text]
  | assign p target value =>
    refine ⟨_, by simp only [stmt, expr_eq h.1, expr_eq h.2]; rfl, ?_⟩
    simp [Stmt.map, Stmt.text]
  | conditional p condition thenBody elseBody ht he =>
    obtain ⟨hc, h₁, h₂⟩ := h
    rw [Stmt.allConsist_iff] at h₁ h₂
    obtain ⟨ls, hls, hl⟩ := prints_stmts fun s hs => ht s hs (h₁ s hs) (depth + 1)
    obtain ⟨ms, hms, hm⟩ := prints_stmts fun s hs => he s hs (h₂ s hs) (depth + 1)
    refine ⟨_, by simp only [stmt, expr_eq hc, hls, hms]; rfl, ?_⟩
    cases elseBody <;> simp [Stmt.map, Stmt.text, hl, hm, Stmt.mapAll]
  | forLoop p name iterable body ih =>
    obtain ⟨-, hi, h⟩ := h
    rw [Stmt.allConsist_iff] at h
    obtain ⟨ls, hls, hl⟩ := prints_stmts fun s hs => ih s hs (h s hs) (depth + 1)
    refine ⟨_, by simp only [stmt, expr_eq hi, hls]; rfl, ?_⟩
    simp [Stmt.map, Stmt.text, hl]
  | whileLoop p condition body ih =>
    obtain ⟨hc, h⟩ := h
    rw [Stmt.allConsist_iff] at h
    obtain ⟨ls, hls, hl⟩ := prints_stmts fun s hs => ih s hs (h s hs) (depth + 1)
    refine ⟨_, by simp only [stmt, expr_eq hc, hls]; rfl, ?_⟩
    simp [Stmt.map, Stmt.text, hl]
  | ret p value =>
    refine ⟨_, by simp only [stmt, expr_eq h]; rfl, ?_⟩
    simp [Stmt.map, Stmt.text]
  | unknown => exact h.elim

theorem prints_method {N : String → Prop} {m : Method} (h : m.Consists Expr.WellFormed N) :
    Prints (method m) (m.map Expr.grouped id).text := by
  have hbody := (Stmt.allConsist_iff m.body).mp h.2.2.2
  obtain ⟨ls, hls, hl⟩ := prints_stmts fun s hs => prints_stmt (hbody s hs) 1
  refine ⟨_, by simp only [method, hls]; rfl, ?_⟩
  have hparams : (m.params.map param).map String.toList =
      (m.params.map (Param.map id)).map Param.text := by
    simp [param, Param.map, Param.text, typeText, Function.comp_def]
  simp [hl, hparams, unlines_cons, Method.map, Method.text, separated, typeText]

theorem prints_methods {N : String → Prop} {ms : List Method}
    (h : ∀ m ∈ ms, m.Consists Expr.WellFormed N) (first : Bool) :
    Prints (methods first ms) (Method.texts first (ms.map (Method.map Expr.grouped id))) := by
  induction ms generalizing first with
  | nil => exact ⟨[], rfl, rfl⟩
  | cons m ms ih =>
    obtain ⟨ls, hls, hl⟩ := prints_method (h m (by simp))
    obtain ⟨ks, hks, hk⟩ := ih (fun n hn => h n (by simp [hn])) false
    refine ⟨_, by simp only [methods, hls, hks]; rfl, ?_⟩
    cases first <;> simp [hl, hk, Method.texts, unlines_cons]

theorem mapM_binding {N : String → Prop} {bs : List Binding}
    (h : ∀ b ∈ bs, b.Consists Expr.WellFormed N) :
    bs.mapM binding = .ok (bs.map fun b => String.ofList (b.map Expr.grouped id).text) := by
  induction bs with
  | nil => rfl
  | cons b bs ih =>
    simp only [List.mapM_cons, binding_eq (h b (by simp)), ih fun c hc => h c (by simp [hc])]
    rfl

end Printer

/-- The printer writes a well-formed program as the text of its grouped form. -/
theorem Program.print_eq {p : Program} (h : p.WellFormed) :
    p.print = .ok (String.ofList p.grouped.text) := by
  let fields := p.fields.map fun b => String.ofList (b.map Expr.grouped id).text
  obtain ⟨ls, hls, hl⟩ := Printer.prints_methods h.2 fields.isEmpty
  have hlines : Printer.lines p = .ok (fields ++ ls) := by
    simp only [Printer.lines, Printer.mapM_binding h.1]
    change (Printer.methods fields.isEmpty p.methods >>= fun ms => pure (fields ++ ms)) = _
    rw [hls]
    rfl
  simp only [print, hlines]
  apply Printer.ok_of_toList
  have hjoin (ms : List String) :
      (String.join (ms.map (· ++ "\n"))).toList = Printer.unlines ms := by
    simp [Printer.unlines, String.toList_join, List.flatMap_map]
  rw [hjoin, Printer.unlines_append, hl]
  simp [fields, Printer.unlines, grouped, map, text, List.flatMap_map]

end BlockScript
