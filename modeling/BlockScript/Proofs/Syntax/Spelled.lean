import BlockScript.Proofs.Syntax.Everywhere
import BlockScript.Proofs.Token.Scanning

/-!
# Tokens of trees

Which stretches of tokens a tree is spelled with, by the shape of the tree alone. Every node has the
place of its first token. Where parentheses must stand is not said here but by `Expr.Canonical`.
-/

namespace BlockScript

/-- A property of stretches of tokens. -/
abbrev Phrase := List Token → Prop

namespace Phrase

def empty : Phrase := fun ts => ts = []

def one (P : Token → Prop) : Phrase := fun ts => ∃ t, ts = [t] ∧ P t

def followedBy (P Q : Phrase) : Phrase := fun ts => ∃ us vs, ts = us ++ vs ∧ P us ∧ Q vs

def operator (text : String) : Phrase := one fun t => t.isOperator text

def keyword (word : Keyword) : Phrase := one fun t => t.isKeyword word

def identifier (id : String) : Phrase := one fun t => t.kind = .identifier ∧ t.value = id

/-- A reserved word at a place. -/
def keywordAt (p : Position) (word : Keyword) : Phrase :=
  one fun t => t.isKeyword word ∧ t.position = p

/-- A name at a place. -/
def identifierAt (p : Position) (id : String) : Phrase :=
  one fun t => (t.kind = .identifier ∧ t.value = id) ∧ t.position = p

/-- Phrases one after another. -/
def all : List Phrase → Phrase
  | [] => empty
  | P :: Ps => P.followedBy (all Ps)

/-- Phrases with a comma before each. -/
def commas : List Phrase → Phrase
  | [] => empty
  | P :: Ps => (operator ",").followedBy (P.followedBy (commas Ps))

/-- Phrases in parentheses, separated by commas. -/
def parenthesised : List Phrase → Phrase
  | [] => (operator "(").followedBy (operator ")")
  | P :: Ps => (operator "(").followedBy (P.followedBy ((commas Ps).followedBy (operator ")")))

/-- A colon and a type name, where there is one. -/
def typeName : Option String → Phrase
  | some type => (operator ":").followedBy (identifier type)
  | none => empty

/-- An equals sign and a phrase, where there is one. -/
def initial : Option Phrase → Phrase
  | some P => (operator "=").followedBy P
  | none => empty

/-- The end of an IF: a bare END, if that is allowed, or ELSE and a body before it. -/
def alternative (bare : Prop) (body : Phrase) : Phrase := fun ts =>
  bare ∧ keyword .END ts ∨
    ((keyword .ELSE).followedBy (body.followedBy (keyword .END))) ts

end Phrase

open Phrase

namespace Expr

mutual

def Spelled : Expr → Phrase
  | .literal p value => one fun t => Grammar.literal? t = some value ∧ t.position = p
  | .group p inner =>
    (one fun t => t.isOperator "(" ∧ t.position = p).followedBy
      (inner.Spelled.followedBy (operator ")"))
  | .binary p op left right => fun ts =>
    (left.Spelled.followedBy
      ((one fun t => Grammar.operatorAt op.strength t = some op).followedBy right.Spelled)) ts ∧
      p = left.position
  | .name p id => identifierAt p id
  | .member p receiver id => fun ts =>
    (receiver.Spelled.followedBy ((operator ".").followedBy (identifier id))) ts ∧
      p = receiver.position
  | .call p id arguments => (identifierAt p id).followedBy (parenthesised (spellings arguments))
  | .methodCall p receiver id arguments => fun ts =>
    (receiver.Spelled.followedBy ((operator ".").followedBy
      ((identifier id).followedBy (parenthesised (spellings arguments))))) ts ∧
      p = receiver.position
  | .unknown .. => fun _ => False

def spellings : List Expr → List Phrase
  | [] => []
  | e :: es => e.Spelled :: spellings es

end

theorem spellings_eq_map (es : List Expr) : spellings es = es.map Spelled := by
  induction es with
  | nil => rfl
  | cons e es ih => simp [spellings, ih]

end Expr

def Binding.Spelled (b : Binding) : Phrase :=
  (keywordAt b.position .LET).followedBy ((identifier b.name).followedBy
    ((typeName b.type).followedBy
      ((initial (b.value.map Expr.Spelled)).followedBy (operator ";"))))

namespace Stmt

mutual

def Spelled : Stmt → Phrase
  | .expression p value => fun ts =>
    (value.Spelled.followedBy (operator ";")) ts ∧ p = value.position
  | .declare b => b.Spelled
  | .assign p target value => fun ts =>
    (target.Spelled.followedBy ((operator "=").followedBy
      (value.Spelled.followedBy (operator ";")))) ts ∧ p = target.position
  | .conditional p condition thenBody elseBody =>
    (keywordAt p .IF).followedBy (condition.Spelled.followedBy ((keyword .DO).followedBy
      ((all (spellings thenBody)).followedBy
        (alternative (elseBody = []) (all (spellings elseBody))))))
  | .forLoop p name iterable body =>
    (keywordAt p .FOR).followedBy ((identifier name).followedBy ((keyword .IN).followedBy
      (iterable.Spelled.followedBy ((keyword .DO).followedBy
        ((all (spellings body)).followedBy (keyword .END))))))
  | .whileLoop p condition body =>
    (keywordAt p .WHILE).followedBy (condition.Spelled.followedBy ((keyword .DO).followedBy
      ((all (spellings body)).followedBy (keyword .END))))
  | .ret p value =>
    (keywordAt p .RETURN).followedBy (value.Spelled.followedBy (operator ";"))
  | .unknown .. => fun _ => False

def spellings : List Stmt → List Phrase
  | [] => []
  | s :: rest => s.Spelled :: spellings rest

end

theorem spellings_eq_map (ss : List Stmt) : spellings ss = ss.map Spelled := by
  induction ss with
  | nil => rfl
  | cons s ss ih => simp [spellings, ih]

end Stmt

def Param.Spelled (p : Param) : Phrase :=
  (identifierAt p.position p.name).followedBy (typeName p.type)

def Method.Spelled (m : Method) : Phrase :=
  (keywordAt m.position .DEF).followedBy ((identifier m.name).followedBy
    ((parenthesised (m.params.map Param.Spelled)).followedBy ((typeName m.returnType).followedBy
      ((keyword .DO).followedBy ((all (Stmt.spellings m.body)).followedBy (keyword .END))))))

/-- The tokens of a program, the end of the input apart. -/
def Program.Spelled (p : Program) : Phrase :=
  (all (p.fields.map Binding.Spelled)).followedBy (all (p.methods.map Method.Spelled))

/-! ## Phrases -/

namespace Phrase

variable {α : Type} {R : Token → Prop} {P Q : Phrase} {t : Token} {ts us : List Token}

theorem one_singleton (h : R t) : one R [t] := ⟨t, rfl, h⟩

theorem followedBy_append (h : P ts) (h' : Q us) : P.followedBy Q (ts ++ us) := ⟨ts, us, rfl, h, h'⟩

theorem followedBy_cons (h : R t) (h' : Q ts) : (one R).followedBy Q (t :: ts) :=
  ⟨[t], ts, rfl, one_singleton h, h'⟩

section

variable {f g : α → Phrase} {xs : List α} (hfg : ∀ x ∈ xs, ∀ ts, f x ts → g x ts)
include hfg

theorem all_mono (h : all (xs.map f) ts) : all (xs.map g) ts := by
  induction xs generalizing ts with
  | nil => exact h
  | cons x xs ih =>
    obtain ⟨hx, hxs⟩ := List.forall_mem_cons.mp hfg
    obtain ⟨us, vs, rfl, h, h'⟩ := h
    exact followedBy_append (hx us h) (ih hxs h')

theorem commas_mono (h : commas (xs.map f) ts) : commas (xs.map g) ts := by
  induction xs generalizing ts with
  | nil => exact h
  | cons x xs ih =>
    obtain ⟨hx, hxs⟩ := List.forall_mem_cons.mp hfg
    obtain ⟨us, _, rfl, hc, vs, ws, rfl, h, h'⟩ := h
    exact followedBy_append hc (followedBy_append (hx vs h) (ih hxs h'))

theorem parenthesised_mono (h : parenthesised (xs.map f) ts) : parenthesised (xs.map g) ts := by
  cases xs with
  | nil => exact h
  | cons x xs =>
    obtain ⟨hx, hxs⟩ := List.forall_mem_cons.mp hfg
    obtain ⟨us, _, rfl, ho, vs, _, rfl, h, ws, cs, rfl, h', hc⟩ := h
    exact followedBy_append ho (followedBy_append (hx vs h)
      (followedBy_append (commas_mono hxs h') hc))

end

end Phrase

/-- A spelled expression has a first token, and its place. -/
theorem Expr.cons_of_spelled {e : Expr} (h : e.Spelled ts) :
    ∃ t us, ts = t :: us ∧ t.position = e.position := by
  induction e generalizing ts with
  | literal p value =>
    obtain ⟨t, rfl, -, ht⟩ := h
    exact ⟨t, [], rfl, ht⟩
  | group p inner =>
    obtain ⟨_, us, rfl, ⟨t, rfl, -, ht⟩, -⟩ := h
    exact ⟨t, us, rfl, ht⟩
  | binary p op left right ih =>
    obtain ⟨⟨_, us, rfl, hleft, -⟩, rfl⟩ := h
    obtain ⟨t, vs, rfl, ht⟩ := ih hleft
    exact ⟨t, vs ++ us, rfl, ht⟩
  | name p id =>
    obtain ⟨t, rfl, -, ht⟩ := h
    exact ⟨t, [], rfl, ht⟩
  | member p receiver id ih | methodCall p receiver id arguments ih =>
    obtain ⟨⟨_, us, rfl, hreceiver, -⟩, rfl⟩ := h
    obtain ⟨t, vs, rfl, ht⟩ := ih hreceiver
    exact ⟨t, vs ++ us, rfl, ht⟩
  | call p id arguments =>
    obtain ⟨_, us, rfl, ⟨t, rfl, -, ht⟩, -⟩ := h
    exact ⟨t, us, rfl, ht⟩
  | unknown => exact h.elim

/-! ## What holds of all tokens holds of each part -/

namespace Phrase

variable {L : Token → Prop} {P Q : Phrase} {ts : List Token}

theorem one_of_forall {R : Token → Prop} (h : one R ts) (hL : ∀ t ∈ ts, L t) : ∃ t, L t ∧ R t := by
  obtain ⟨t, rfl, ht⟩ := h
  exact ⟨t, hL t (by simp), ht⟩

theorem followedBy_of_forall (h : P.followedBy Q ts) (hL : ∀ t ∈ ts, L t) :
    (∃ us, (∀ t ∈ us, L t) ∧ P us) ∧ ∃ vs, (∀ t ∈ vs, L t) ∧ Q vs := by
  obtain ⟨us, vs, rfl, hus, hvs⟩ := h
  obtain ⟨hL₁, hL₂⟩ := List.forall_mem_append.mp hL
  exact ⟨⟨us, hL₁, hus⟩, vs, hL₂, hvs⟩

theorem all_of_forall {Ps : List Phrase} (h : all Ps ts) (hL : ∀ t ∈ ts, L t) :
    ∀ P ∈ Ps, ∃ us, (∀ t ∈ us, L t) ∧ P us := by
  induction Ps generalizing ts with
  | nil => simp
  | cons P Ps ih =>
    obtain ⟨hP, us, hus, h⟩ := followedBy_of_forall h hL
    exact List.forall_mem_cons.mpr ⟨hP, ih h hus⟩

/-- What is said of each item beside its tokens can be said of all items together. -/
theorem all_and {α : Type} {f : α → Phrase} {C : α → Prop} {xs : List α} :
    all (xs.map fun x us => f x us ∧ C x) ts ↔ all (xs.map f) ts ∧ ∀ x ∈ xs, C x := by
  constructor
  · intro h
    refine ⟨all_mono (fun _ _ _ hx => hx.1) h, fun x hx => ?_⟩
    obtain ⟨us, -, hu⟩ := all_of_forall (L := fun _ => True) h (by simp) _ (List.mem_map_of_mem hx)
    exact hu.2
  · rintro ⟨h, hC⟩
    exact all_mono (fun x hx us hus => ⟨hus, hC x hx⟩) h

theorem commas_of_forall {Ps : List Phrase} (h : commas Ps ts) (hL : ∀ t ∈ ts, L t) :
    ∀ P ∈ Ps, ∃ us, (∀ t ∈ us, L t) ∧ P us := by
  induction Ps generalizing ts with
  | nil => simp
  | cons P Ps ih =>
    obtain ⟨-, us, hus, h⟩ := followedBy_of_forall h hL
    obtain ⟨hP, vs, hvs, h⟩ := followedBy_of_forall h hus
    exact List.forall_mem_cons.mpr ⟨hP, ih h hvs⟩

theorem parenthesised_of_forall {Ps : List Phrase} (h : parenthesised Ps ts)
    (hL : ∀ t ∈ ts, L t) : ∀ P ∈ Ps, ∃ us, (∀ t ∈ us, L t) ∧ P us := by
  cases Ps with
  | nil => simp
  | cons P Ps =>
    obtain ⟨-, us, hus, h⟩ := followedBy_of_forall h hL
    obtain ⟨hP, vs, hvs, h⟩ := followedBy_of_forall h hus
    obtain ⟨⟨ws, hws, h⟩, -⟩ := followedBy_of_forall h hvs
    exact List.forall_mem_cons.mpr ⟨hP, commas_of_forall h hws⟩

theorem identifier_of_forall {id : String} (h : identifier id ts) (hL : ∀ t ∈ ts, t.Lexical) :
    IsIdentifier id := by
  obtain ⟨t, ht, hk, rfl⟩ := one_of_forall h hL
  simpa only [Token.Lexical, hk] using ht

theorem identifierAt_of_forall {p : Position} {id : String} (h : identifierAt p id ts)
    (hL : ∀ t ∈ ts, t.Lexical) : IsIdentifier id := by
  obtain ⟨t, rfl, ht, -⟩ := h
  exact identifier_of_forall ⟨t, rfl, ht⟩ hL

theorem typeName_of_forall {type : Option String} (h : typeName type ts)
    (hL : ∀ t ∈ ts, t.Lexical) : ∀ id ∈ type, IsIdentifier id := by
  rintro id rfl
  obtain ⟨-, us, hus, h⟩ := followedBy_of_forall h hL
  exact identifier_of_forall h hus

end Phrase

theorem Grammar.literal?_wellFormed {t : Token} {value : Literal} (h : literal? t = some value)
    (ht : t.Lexical) : value.WellFormed := by
  unfold literal? at h
  unfold Token.Lexical at ht
  split at h <;> cases h <;> simp_all [Literal.WellFormed]

theorem Operator.mem_known_of_operatorAt {n : Nat} {t : Token} {op : Operator}
    (h : Grammar.operatorAt n t = some op) : op ∈ known ∧ op.strength = n := by
  unfold Grammar.operatorAt at h
  split at h
  · simp only [Option.ite_none_right_eq_some, Option.some.injEq] at h
    obtain ⟨hp, rfl⟩ := h
    refine ⟨?_, by simp [strength, hp]⟩
    cases hop : ofSpelling t.value <;> simp_all [known, precedence?]
  · simp only [Option.ite_none_right_eq_some, Option.some.injEq] at h
    obtain ⟨hp, rfl⟩ := h
    refine ⟨?_, by simp [strength, hp]⟩
    cases hop : ofSpelling t.value <;> simp_all [known, precedence?]
  · cases h

/-- Tokens that are words of the language spell well-formed trees only. -/
theorem Expr.wellFormed_of_spelled {e : Expr} {ts : List Token} (h : e.Spelled ts)
    (ht : ∀ t ∈ ts, t.Lexical) : e.WellFormed := by
  induction e generalizing ts with
  | literal p value =>
    obtain ⟨t, ht, hv, -⟩ := one_of_forall h ht
    exact Grammar.literal?_wellFormed hv ht
  | group p inner ih =>
    obtain ⟨-, us, hus, h⟩ := followedBy_of_forall h ht
    obtain ⟨⟨vs, hvs, h⟩, -⟩ := followedBy_of_forall h hus
    exact ih h hvs
  | binary p op left right hl hr =>
    obtain ⟨⟨us, hus, h₁⟩, vs, hvs, h⟩ := followedBy_of_forall h.1 ht
    obtain ⟨⟨ws, -, t, -, ho⟩, xs, hxs, h₂⟩ := followedBy_of_forall h hvs
    exact ⟨(Operator.mem_known_of_operatorAt ho).1, hl h₁ hus, hr h₂ hxs⟩
  | name p id => exact identifierAt_of_forall h ht
  | member p receiver id ih =>
    obtain ⟨⟨us, hus, h₁⟩, vs, hvs, h⟩ := followedBy_of_forall h.1 ht
    obtain ⟨-, ws, hws, h₂⟩ := followedBy_of_forall h hvs
    exact ⟨ih h₁ hus, identifier_of_forall h₂ hws⟩
  | call p id arguments ih =>
    obtain ⟨⟨us, hus, h₁⟩, vs, hvs, h⟩ := followedBy_of_forall h ht
    rw [spellings_eq_map] at h
    refine ⟨identifierAt_of_forall h₁ hus, (allWellFormed_iff _).mpr fun e he => ?_⟩
    obtain ⟨ws, hws, h⟩ := parenthesised_of_forall h hvs _ (List.mem_map_of_mem he)
    exact ih e he h hws
  | methodCall p receiver id arguments hr ih =>
    obtain ⟨⟨us, hus, h₁⟩, vs, hvs, h⟩ := followedBy_of_forall h.1 ht
    obtain ⟨-, vs, hvs, h⟩ := followedBy_of_forall h hvs
    obtain ⟨⟨ws, hws, h₂⟩, vs, hvs, h⟩ := followedBy_of_forall h hvs
    rw [spellings_eq_map] at h
    refine ⟨hr h₁ hus, identifier_of_forall h₂ hws, (allWellFormed_iff _).mpr fun e he => ?_⟩
    obtain ⟨ws, hws, h⟩ := parenthesised_of_forall h hvs _ (List.mem_map_of_mem he)
    exact ih e he h hws
  | unknown => exact h.elim

theorem Expr.wellFormed_of_initial {value : Option Expr} {ts : List Token}
    (h : initial (value.map Spelled) ts) (ht : ∀ t ∈ ts, t.Lexical) :
    ∀ e ∈ value, e.WellFormed := by
  rintro e rfl
  obtain ⟨-, us, hus, h⟩ := followedBy_of_forall h ht
  exact wellFormed_of_spelled h hus

theorem Binding.consists_of_spelled {b : Binding} {ts : List Token} (h : b.Spelled ts)
    (ht : ∀ t ∈ ts, t.Lexical) : b.Consists Expr.WellFormed IsIdentifier := by
  obtain ⟨-, us, hus, h⟩ := followedBy_of_forall h ht
  obtain ⟨⟨vs, hvs, hname⟩, us, hus, h⟩ := followedBy_of_forall h hus
  obtain ⟨⟨ws, hws, htype⟩, us, hus, h⟩ := followedBy_of_forall h hus
  obtain ⟨⟨xs, hxs, hvalue⟩, -⟩ := followedBy_of_forall h hus
  exact ⟨identifier_of_forall hname hvs, typeName_of_forall htype hws,
    Expr.wellFormed_of_initial hvalue hxs⟩

namespace Stmt

variable {ts : List Token}

theorem allConsist_of_spellings {ss : List Stmt} (h : all (spellings ss) ts)
    (ht : ∀ t ∈ ts, t.Lexical)
    (ih : ∀ s ∈ ss, ∀ us, s.Spelled us → (∀ t ∈ us, t.Lexical) →
      s.Consists Expr.WellFormed IsIdentifier) :
    AllConsist Expr.WellFormed IsIdentifier ss := by
  rw [spellings_eq_map] at h
  refine (allConsist_iff ss).mpr fun s hs => ?_
  obtain ⟨us, hus, h⟩ := all_of_forall h ht _ (List.mem_map_of_mem hs)
  exact ih s hs us h hus

theorem consists_of_spelled {s : Stmt} (h : s.Spelled ts) (ht : ∀ t ∈ ts, t.Lexical) :
    s.Consists Expr.WellFormed IsIdentifier := by
  induction s generalizing ts with
  | expression p value =>
    obtain ⟨⟨us, hus, h⟩, -⟩ := followedBy_of_forall h.1 ht
    exact Expr.wellFormed_of_spelled h hus
  | declare b => exact b.consists_of_spelled h ht
  | assign p target value =>
    obtain ⟨⟨us, hus, htarget⟩, vs, hvs, h⟩ := followedBy_of_forall h.1 ht
    obtain ⟨-, vs, hvs, h⟩ := followedBy_of_forall h hvs
    obtain ⟨⟨ws, hws, hvalue⟩, -⟩ := followedBy_of_forall h hvs
    exact ⟨Expr.wellFormed_of_spelled htarget hus, Expr.wellFormed_of_spelled hvalue hws⟩
  | conditional p condition thenBody elseBody iht ihe =>
    obtain ⟨-, us, hus, h⟩ := followedBy_of_forall h ht
    obtain ⟨⟨vs, hvs, hcond⟩, us, hus, h⟩ := followedBy_of_forall h hus
    obtain ⟨-, us, hus, h⟩ := followedBy_of_forall h hus
    obtain ⟨⟨ws, hws, hthen⟩, us, hus, h⟩ := followedBy_of_forall h hus
    refine ⟨Expr.wellFormed_of_spelled hcond hvs, allConsist_of_spellings hthen hws
      fun s hs us => iht s hs, ?_⟩
    rcases h with ⟨rfl, -⟩ | h
    · trivial
    · obtain ⟨-, us, hus, h⟩ := followedBy_of_forall h hus
      obtain ⟨⟨ws, hws, helse⟩, -⟩ := followedBy_of_forall h hus
      exact allConsist_of_spellings helse hws fun s hs us => ihe s hs
  | forLoop p name iterable body ih =>
    obtain ⟨-, us, hus, h⟩ := followedBy_of_forall h ht
    obtain ⟨⟨vs, hvs, hname⟩, us, hus, h⟩ := followedBy_of_forall h hus
    obtain ⟨-, us, hus, h⟩ := followedBy_of_forall h hus
    obtain ⟨⟨ws, hws, hiter⟩, us, hus, h⟩ := followedBy_of_forall h hus
    obtain ⟨-, us, hus, h⟩ := followedBy_of_forall h hus
    obtain ⟨⟨xs, hxs, hbody⟩, -⟩ := followedBy_of_forall h hus
    exact ⟨identifier_of_forall hname hvs, Expr.wellFormed_of_spelled hiter hws,
      allConsist_of_spellings hbody hxs fun s hs us => ih s hs⟩
  | whileLoop p condition body ih =>
    obtain ⟨-, us, hus, h⟩ := followedBy_of_forall h ht
    obtain ⟨⟨ws, hws, hcond⟩, us, hus, h⟩ := followedBy_of_forall h hus
    obtain ⟨-, us, hus, h⟩ := followedBy_of_forall h hus
    obtain ⟨⟨xs, hxs, hbody⟩, -⟩ := followedBy_of_forall h hus
    exact ⟨Expr.wellFormed_of_spelled hcond hws,
      allConsist_of_spellings hbody hxs fun s hs us => ih s hs⟩
  | ret p value =>
    obtain ⟨-, us, hus, h⟩ := followedBy_of_forall h ht
    obtain ⟨⟨vs, hvs, h⟩, -⟩ := followedBy_of_forall h hus
    exact Expr.wellFormed_of_spelled h hvs
  | unknown => exact h.elim

end Stmt

theorem Param.consists_of_spelled {p : Param} {ts : List Token} (h : p.Spelled ts)
    (ht : ∀ t ∈ ts, t.Lexical) : p.Consists IsIdentifier := by
  obtain ⟨⟨us, hus, hname⟩, vs, hvs, htype⟩ := followedBy_of_forall h ht
  exact ⟨identifierAt_of_forall hname hus, typeName_of_forall htype hvs⟩

theorem Method.consists_of_spelled {m : Method} {ts : List Token} (h : m.Spelled ts)
    (ht : ∀ t ∈ ts, t.Lexical) : m.Consists Expr.WellFormed IsIdentifier := by
  obtain ⟨-, us, hus, h⟩ := followedBy_of_forall h ht
  obtain ⟨⟨vs, hvs, hname⟩, us, hus, h⟩ := followedBy_of_forall h hus
  obtain ⟨⟨ps, hps, hparams⟩, us, hus, h⟩ := followedBy_of_forall h hus
  obtain ⟨⟨ws, hws, htype⟩, us, hus, h⟩ := followedBy_of_forall h hus
  obtain ⟨-, us, hus, h⟩ := followedBy_of_forall h hus
  obtain ⟨⟨xs, hxs, hbody⟩, -⟩ := followedBy_of_forall h hus
  refine ⟨identifier_of_forall hname hvs, fun p hp => ?_, typeName_of_forall htype hws,
    Stmt.allConsist_of_spellings hbody hxs fun s _ us => Stmt.consists_of_spelled⟩
  obtain ⟨us, hus, h⟩ := parenthesised_of_forall hparams hps _ (List.mem_map_of_mem hp)
  exact p.consists_of_spelled h hus

@[inherit_doc Expr.wellFormed_of_spelled]
theorem Program.wellFormed_of_spelled {p : Program} {ts : List Token} (h : p.Spelled ts)
    (ht : ∀ t ∈ ts, t.Lexical) : p.WellFormed := by
  obtain ⟨⟨us, hus, hfields⟩, vs, hvs, hmethods⟩ := followedBy_of_forall h ht
  refine ⟨fun b hb => ?_, fun m hm => ?_⟩
  · obtain ⟨ws, hws, h⟩ := all_of_forall hfields hus _ (List.mem_map_of_mem hb)
    exact b.consists_of_spelled h hws
  · obtain ⟨ws, hws, h⟩ := all_of_forall hmethods hvs _ (List.mem_map_of_mem hm)
    exact m.consists_of_spelled h hws

end BlockScript
