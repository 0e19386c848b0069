import BlockScript.Proofs.Syntax.Reading

/-!
# Reading is complete

Tokens that spell a canonical tree are read as that tree, if what follows them cannot go on with it.
The operands of one precedence are read one after another, so that what is shown of a tree is first
that reading it leads to the loop that would join more operands to it, and then that this loop ends.
-/

namespace BlockScript.Grammar

open Phrase

variable {α β : Type} {t : Token} {ts us rest : List Token}

@[simp] theorem front_cons : front (t :: ts) = t := rfl

theorem advance_bind {f : Unit → Production β} (hk : t.kind ≠ .endOfInput) :
    (advance >>= f) (t :: ts) = f () ts := bind_of_ok (advance_cons hk)

theorem operator_of_isOperator {text : String} (ht : t.isOperator text) :
    operator text (t :: ts) = .ok ((), ts) := by
  unfold operator
  rw [atOperator_bind, front_cons, if_pos ht]
  exact advance_cons (by simp [kind_of_isOperator ht])

theorem operator_bind {text : String} {f : Unit → Production β} (ht : t.isOperator text) :
    (operator text >>= f) (t :: ts) = f () ts := bind_of_ok (operator_of_isOperator ht)

theorem keyword_bind {word : Keyword} {f : Unit → Production β} (ht : t.isKeyword word) :
    (keyword word >>= f) (t :: ts) = f () ts := by
  apply bind_of_ok
  unfold keyword
  rw [atKeyword_bind, front_cons, if_pos ht]
  exact advance_cons (by simp [kind_of_isKeyword ht])

theorem identifier_of_kind (hk : t.kind = .identifier) :
    identifier (t :: ts) = .ok (t.value, ts) := by
  unfold identifier
  rw [current_bind, front_cons, if_pos (by simp [hk]), advance_bind (by simp [hk])]
  rfl

theorem identifier_bind {f : String → Production β} (hk : t.kind = .identifier) :
    (identifier >>= f) (t :: ts) = f t.value ts := bind_of_ok (identifier_of_kind hk)

theorem not_isOperator_of_ne {text other : String} (ht : t.isOperator text) (hne : text ≠ other) :
    t.isOperator other = false := by
  simp only [Token.isOperator, Bool.and_eq_true, beq_iff_eq] at ht
  simp [Token.isOperator, ht, hne]

theorem not_isOperator_of_kind {text : String} (hk : t.kind ≠ .operator) :
    t.isOperator text = false := by
  simp [Token.isOperator, hk]

/-! ## What follows a tree -/

/-- The tokens go on with no operand that binds at least as tightly as `k` says, nor with arguments;
a point is such an operand if `k` is at most five. -/
structure Follows (k : Nat) (rest : List Token) : Prop where
  arguments : (front rest).isOperator "(" = false
  point : k ≤ 5 → (front rest).isOperator "." = false
  operators : ∀ j, k ≤ j → operatorAt j (front rest) = none

theorem Follows.mono {k l : Nat} (h : Follows k rest) (hkl : k ≤ l) : Follows l rest :=
  ⟨h.arguments, fun hl => h.point (Nat.le_trans hkl hl),
    fun j hj => h.operators j (Nat.le_trans hkl hj)⟩

theorem value_of_isOperator {text : String} (ht : t.isOperator text) : t.value = text := by
  simp only [Token.isOperator, Bool.and_eq_true, beq_iff_eq] at ht
  exact ht.2

theorem operatorAt_eq_none {j : Nat} {text : String} (ht : t.isOperator text)
    (hp : (Operator.ofSpelling text).precedence? = none) : operatorAt j t = none := by
  simp [operatorAt, kind_of_isOperator ht, value_of_isOperator ht, hp]

/-- Marks that belong to no expression. -/
theorem follows_mark {text : String} (ht : (front rest).isOperator text)
    (hm : text = ";" ∨ text = "=" ∨ text = "," ∨ text = ")") : Follows 0 rest := by
  rcases hm with rfl | rfl | rfl | rfl <;>
    exact ⟨not_isOperator_of_ne ht (by decide), fun _ => not_isOperator_of_ne ht (by decide),
      fun j _ => operatorAt_eq_none ht rfl⟩

theorem follows_keyword {word : Keyword} (ht : (front rest).isKeyword word)
    (hv : (front rest).value = word.spelling)
    (hp : (Operator.ofSpelling word.spelling).precedence? = none) : Follows 0 rest := by
  have hk := kind_of_isKeyword ht
  refine ⟨not_isOperator_of_kind (by simp [hk]), fun _ => not_isOperator_of_kind (by simp [hk]), ?_⟩
  intro j _
  simp [operatorAt, hk, hv, hp]

theorem ofSpelling_of_operatorAt {k : Nat} {op : Operator} (ht : operatorAt k t = some op) :
    op = Operator.ofSpelling t.value := by
  unfold operatorAt at ht
  split at ht
  · simp only [Option.ite_none_right_eq_some, Option.some.injEq] at ht
    exact ht.2.symm
  · simp only [Option.ite_none_right_eq_some, Option.some.injEq] at ht
    exact ht.2.symm
  · cases ht

/-- An operator follows the operands that bind more tightly than it. -/
theorem follows_operatorAt {k : Nat} {op : Operator} (ht : operatorAt k (front rest) = some op) :
    Follows (k + 1) rest := by
  have hmark : ∀ text, (Operator.ofSpelling text).precedence? = none →
      (front rest).isOperator text = false := by
    intro text hp
    cases h : (front rest).isOperator text with
    | false => rfl
    | true => rw [operatorAt_eq_none h hp] at ht; cases ht
  refine ⟨hmark "(" rfl, fun _ => hmark "." rfl, fun j hj => ?_⟩
  cases h : operatorAt j (front rest) with
  | none => rfl
  | some op' =>
    have hop : op' = op := by rw [ofSpelling_of_operatorAt h, ofSpelling_of_operatorAt ht]
    have hk := (Operator.mem_known_of_operatorAt ht).2
    have hj' := (Operator.mem_known_of_operatorAt h).2
    rw [hop] at hj'
    omega

theorem follows_point (ht : (front rest).isOperator ".") : Follows 6 rest :=
  ⟨not_isOperator_of_ne ht (by decide), fun h => by omega,
    fun j _ => operatorAt_eq_none ht rfl⟩

/-! ## First tokens -/

/-- The token can be the first of an expression. -/
def Begins (t : Token) : Prop := (literal? t).isSome ∨ t.kind = .identifier ∨ t.isOperator "("

theorem begins_of_spelled {e : Expr} (h : e.Spelled ts) : ∃ t us, ts = t :: us ∧ Begins t := by
  induction e generalizing ts with
  | literal p value =>
    obtain ⟨t, rfl, ht, -⟩ := h
    exact ⟨t, [], rfl, .inl (by simp [ht])⟩
  | group p inner =>
    obtain ⟨_, us, rfl, ⟨t, rfl, ht, -⟩, -⟩ := h
    exact ⟨t, us, rfl, .inr (.inr ht)⟩
  | binary p op left right ih =>
    obtain ⟨⟨_, us, rfl, hleft, -⟩, rfl⟩ := h
    obtain ⟨t, vs, rfl, ht⟩ := ih hleft
    exact ⟨t, vs ++ us, rfl, ht⟩
  | name p id =>
    obtain ⟨t, rfl, ⟨ht, -⟩, -⟩ := h
    exact ⟨t, [], rfl, .inr (.inl ht)⟩
  | member p receiver id ih | methodCall p receiver id arguments ih =>
    obtain ⟨⟨_, us, rfl, hreceiver, -⟩, rfl⟩ := h
    obtain ⟨t, vs, rfl, ht⟩ := ih hreceiver
    exact ⟨t, vs ++ us, rfl, ht⟩
  | call p id arguments =>
    obtain ⟨_, us, rfl, ⟨t, rfl, ⟨ht, -⟩, -⟩, -⟩ := h
    exact ⟨t, us, rfl, .inr (.inl ht)⟩
  | unknown => exact h.elim

theorem Begins.not_close (h : Begins t) : t.isOperator ")" = false := by
  rcases h with h | h | h
  · refine not_isOperator_of_kind fun hk => ?_
    simp [literal?, hk] at h
  · exact not_isOperator_of_kind (by simp [h])
  · exact not_isOperator_of_ne h (by decide)

theorem front_append_of_spelled {e : Expr} (h : e.Spelled ts) : Begins (front (ts ++ rest)) := by
  obtain ⟨t, us, rfl, ht⟩ := begins_of_spelled h
  exact ht

/-! ## Lists of items -/

theorem after_none {text : String} {item : Production α}
    (h : (front ts).isOperator text = false) : after text item ts = .ok (none, ts) := by
  unfold after
  rw [atOperator_bind, h]
  rfl

theorem after_some {text : String} {item : Production α} {a : α} (ht : t.isOperator text)
    (h : item ts = .ok (a, us)) : after text item (t :: ts) = .ok (some a, us) := by
  unfold after
  rw [atOperator_bind, front_cons, if_pos ht, advance_bind (by simp [kind_of_isOperator ht]),
    bind_of_ok h]
  rfl

theorem typeName_of_phrase {type : Option String} (h : Phrase.typeName type ts)
    (hr : (front rest).isOperator ":" = false) : typeName (ts ++ rest) = .ok (type, rest) := by
  cases type with
  | none =>
    obtain rfl : ts = [] := h
    exact after_none hr
  | some id =>
    obtain ⟨_, _, rfl, ⟨t, rfl, ht⟩, i, rfl, hi, rfl⟩ := h
    exact after_some ht (identifier_of_kind hi)

section

variable {item : Production α} {S : α → Phrase} {bound : Nat} {xs : List α}

/-- A comma or the closing parenthesis. -/
def EndsItem (rest : List Token) : Prop :=
  (front rest).isOperator "," ∨ (front rest).isOperator ")"

theorem endsItem_of_commas (h : commas (xs.map S) ts) (hr : (front rest).isOperator ")") :
    EndsItem (ts ++ rest) := by
  cases xs with
  | nil =>
    obtain rfl : ts = [] := h
    exact .inr hr
  | cons x xs =>
    obtain ⟨_, us, rfl, ⟨c, rfl, hc⟩, -⟩ := h
    exact .inl hc

theorem commaItems_of_commas (hts : commas (xs.map S) ts) (hbound : ts.length ≤ bound)
    (hitem : ∀ x ∈ xs, ∀ us, S x us → us.length < ts.length → ∀ rest, EndsItem rest →
      item (us ++ rest) = .ok (x, rest))
    (hr : (front rest).isOperator ")") : commaItems item bound (ts ++ rest) = .ok (xs, rest) := by
  induction xs generalizing ts bound with
  | nil =>
    obtain rfl : ts = [] := hts
    cases bound with
    | zero => rfl
    | succ bound =>
      unfold commaItems
      rw [atOperator_bind, List.nil_append, not_isOperator_of_ne hr (by decide)]
      rfl
  | cons x xs ih =>
    obtain ⟨_, _, rfl, ⟨c, rfl, hc⟩, us, vs, rfl, hx, hxs⟩ := hts
    simp only [List.length_append, List.length_singleton] at hbound hitem
    cases bound with
    | zero => omega
    | succ bound =>
      have hfirst := hitem x (by simp) us hx (by omega) (vs ++ rest) (endsItem_of_commas hxs hr)
      have hothers : commaItems item bound (vs ++ rest) = .ok (xs, rest) :=
        ih hxs (by omega) fun y hy ws hw hlen => hitem y (by simp [hy]) ws hw (by omega)
      unfold commaItems
      simp only [List.cons_append, List.nil_append, List.append_assoc]
      rw [atOperator_bind, front_cons, if_pos hc, advance_bind (by simp [kind_of_isOperator hc]),
        bind_of_ok hfirst, bind_of_ok hothers]
      rfl

theorem parenthesised_of_phrase (hts : Phrase.parenthesised (xs.map S) ts)
    (hbound : ts.length ≤ bound)
    (hitem : ∀ x ∈ xs, ∀ us, S x us → us.length < ts.length → ∀ rest, EndsItem rest →
      item (us ++ rest) = .ok (x, rest))
    (hfront : ∀ x ∈ xs, ∀ us, S x us → ∀ rest, (front (us ++ rest)).isOperator ")" = false) :
    parenthesised item bound (ts ++ rest) = .ok (xs, rest) := by
  cases xs with
  | nil =>
    obtain ⟨_, _, rfl, ⟨o, rfl, ho⟩, c, rfl, hc⟩ := hts
    unfold parenthesised
    simp only [List.cons_append, List.nil_append]
    rw [operator_bind ho, atOperator_bind, front_cons, if_pos hc,
      advance_bind (by simp [kind_of_isOperator hc])]
    rfl
  | cons x xs =>
    obtain ⟨_, _, rfl, ⟨o, rfl, ho⟩, us, _, rfl, hx, vs, _, rfl, hxs, c, rfl, hc⟩ := hts
    simp only [List.length_append, List.length_singleton] at hbound hitem
    have hfirst := hitem x (by simp) us hx (by omega) (vs ++ c :: rest) (endsItem_of_commas hxs hc)
    have hothers : commaItems item bound (vs ++ c :: rest) = .ok (xs, c :: rest) :=
      commaItems_of_commas hxs (by omega)
        (fun y hy ws hw hlen => hitem y (by simp [hy]) ws hw (by omega)) hc
    unfold parenthesised
    simp only [List.cons_append, List.nil_append, List.append_assoc]
    rw [operator_bind ho, atOperator_bind, hfront x (by simp) us hx, if_neg (by simp),
      bind_of_ok hfirst, bind_of_ok hothers, operator_bind hc]
    rfl

end

/-! ## The levels of expressions -/

/-- The production of trees that bind at least as tightly as `5 - n` says. -/
def level (b : Nat) : (n : Nat) → Production Expr
  | 0 => secondary (expression b) b
  | n + 1 => chain (4 - n) (level b n) b

/-- The loop of a level: it joins `m` more operands, or members, to what is read. -/
def joining (b : Nat) : (n m : Nat) → Expr → Production Expr
  | 0, m, e => members (expression b) b m e
  | n + 1, m, e => operands (4 - n) (level b n) m e

variable {b n m : Nat} {e : Expr}

theorem joining_stops (h : Follows (5 - n) rest) : joining b n m e rest = .ok (e, rest) := by
  cases n with
  | zero =>
    cases m with
    | zero => rfl
    | succ m =>
      change members (expression b) b (m + 1) e rest = _
      unfold members
      rw [atOperator_bind, h.point (Nat.le_refl 5)]
      rfl
  | succ n =>
    cases m with
    | zero => rfl
    | succ m =>
      change operands (4 - n) (level b n) (m + 1) e rest = _
      unfold operands
      rw [current_bind, h.operators (4 - n) (by omega)]
      rfl

/-- Reading the tokens of the tree leads to the loop of its level, with enough rounds left. -/
def Reaches (b n : Nat) (e : Expr) (ts : List Token) : Prop :=
  ∃ m, b + 1 ≤ m + ts.length ∧
    ∀ rest, Follows (6 - n) rest → level b n (ts ++ rest) = joining b n m e rest

theorem Reaches.read (h : Reaches b n e ts) (hr : Follows (5 - n) rest) :
    level b n (ts ++ rest) = .ok (e, rest) := by
  obtain ⟨m, -, h⟩ := h
  rw [h rest (hr.mono (by omega)), joining_stops hr]

theorem Reaches.succ (h : Reaches b n e ts) (hts : ts ≠ []) : Reaches b (n + 1) e ts := by
  have hpos := List.length_pos_iff.mpr hts
  refine ⟨b, by omega, fun rest hr => ?_⟩
  have hr' : Follows (5 - n) rest := by rwa [show 6 - (n + 1) = 5 - n by omega] at hr
  exact bind_of_ok (h.read hr')

theorem Reaches.of_le {n' : Nat} (h : Reaches b n e ts) (hts : ts ≠ []) (hn : n ≤ n') :
    Reaches b n' e ts := by
  induction hn with
  | refl => exact h
  | step _ ih => exact ih.succ hts

theorem reaches_primary (hts : ts ≠ [])
    (h : ∀ rest, (front rest).isOperator "(" = false →
      primary (expression b) b (ts ++ rest) = .ok (e, rest)) : Reaches b 0 e ts := by
  have hpos := List.length_pos_iff.mpr hts
  exact ⟨b, by omega, fun rest hr => bind_of_ok (h rest hr.arguments)⟩

/-- The tree is reached at every level that its strength allows. -/
def Readable (e : Expr) : Prop := ∀ ⦃b ts⦄, e.Spelled ts → ts.length ≤ b + 1 →
  ∀ n, 5 - n ≤ e.strength → Reaches b n e ts

theorem spelled_ne_nil (h : e.Spelled ts) : ts ≠ [] := by
  obtain ⟨t, us, rfl, -⟩ := begins_of_spelled h
  simp

theorem strength_pos_of_spelled (h : e.Spelled ts) : 1 ≤ e.strength := by
  cases e with
  | binary p op left right =>
    obtain ⟨⟨us, _, -, -, vs, ws, -, ⟨t, -, ht⟩, -⟩, -⟩ := h
    have hop := (Operator.mem_known_of_operatorAt ht).1
    change 1 ≤ op.strength
    cases op <;> first | decide | simp [Operator.known] at hop
  | _ => exact Nat.le_add_left 1 4

theorem Readable.expression (h : Readable e) (hs : e.Spelled ts) (hb : ts.length ≤ b)
    (hr : Follows 0 rest) : expression b (ts ++ rest) = .ok (e, rest) := by
  have hpos := List.length_pos_iff.mpr (spelled_ne_nil hs)
  cases b with
  | zero => omega
  | succ b => exact (h hs hb 4 (strength_pos_of_spelled hs)).read (hr.mono (by omega))

theorem Readable.arguments {es : List Expr} (h : ∀ e ∈ es, Readable e)
    (hs : Phrase.parenthesised (Expr.spellings es) ts) (hb : ts.length ≤ b) :
    parenthesised (Grammar.expression b) b (ts ++ rest) = .ok (es, rest) := by
  rw [Expr.spellings_eq_map] at hs
  refine parenthesised_of_phrase hs hb ?_ ?_
  · intro e he us hus hlen rest hr
    refine (h e he).expression hus (by omega) ?_
    rcases hr with hr | hr
    · exact follows_mark hr (by simp)
    · exact follows_mark hr (by simp)
  · intro e he us hus rest
    exact (front_append_of_spelled hus).not_close

theorem primary_literal {value : Literal} (h : literal? t = some value) :
    primary (expression b) b (t :: rest) = .ok (.literal t.position value, rest) := by
  have hk : t.kind ≠ .endOfInput := fun hk => by simp [literal?, hk] at h
  unfold primary
  rw [current_bind, front_cons, h]
  exact advance_bind hk

theorem literal_of_identifier (h : t.kind = .identifier) : literal? t = none := by
  simp [literal?, h]

theorem primary_identifier (h : t.kind = .identifier) :
    primary (expression b) b (t :: ts) =
      if (front ts).isOperator "(" then
        (parenthesised (expression b) b >>= fun es => pure (.call t.position t.value es)) ts
      else .ok (.name t.position t.value, ts) := by
  unfold primary
  rw [current_bind, front_cons, literal_of_identifier h]
  simp only [h, beq_self_eq_true, if_true]
  rw [advance_bind (by simp [h]), atOperator_bind]
  split <;> rfl

theorem primary_group {c : Token} {inner : Expr} (ho : t.isOperator "(") (hc : c.isOperator ")")
    (h : expression b ts = .ok (inner, c :: rest)) :
    primary (expression b) b (t :: ts) = .ok (.group t.position inner, rest) := by
  have hk := kind_of_isOperator ho
  have hlit : literal? t = none := by simp [literal?, hk]
  unfold primary
  rw [current_bind, front_cons, hlit]
  simp only [hk, ho, if_true]
  rw [if_neg (by simp), advance_bind (by simp [hk]), bind_of_ok h, operator_bind hc]
  rfl

theorem members_member {nested : Production Expr} {d i : Token} (hd : d.isOperator ".")
    (hi : i.kind = .identifier) (hr : (front rest).isOperator "(" = false) :
    members nested b (m + 1) e (d :: i :: rest) =
      members nested b m (.member e.position e i.value) rest := by
  rw [members, atOperator_bind, front_cons, if_pos hd, advance_bind (by simp [kind_of_isOperator hd]),
    identifier_bind hi, atOperator_bind, hr]
  rfl

theorem members_methodCall {nested : Production Expr} {d i : Token} {es : List Expr}
    (hd : d.isOperator ".") (hi : i.kind = .identifier) (ho : (front ts).isOperator "(")
    (h : parenthesised nested b ts = .ok (es, rest)) :
    members nested b (m + 1) e (d :: i :: ts) =
      members nested b m (.methodCall e.position e i.value es) rest := by
  rw [members, atOperator_bind, front_cons, if_pos hd, advance_bind (by simp [kind_of_isOperator hd]),
    identifier_bind hi, atOperator_bind, if_pos ho, bind_of_ok h]

/-- One more member or method call is joined to its receiver. -/
theorem readable_receiver {receiver : Expr} (us : List Token) (h : Readable receiver)
    (hop : Printer.isOperation receiver = false) {d : Token} (hd : d.isOperator ".")
    (hs : receiver.Spelled ts) (hb : ts.length + us.length ≤ b) (hus : us ≠ [])
    (hjoin : ∀ m rest, (front rest).isOperator "(" = false →
      members (expression b) b (m + 1) receiver (d :: us ++ rest) =
        members (expression b) b m e rest) :
    Reaches b n e (ts ++ d :: us) := by
  have hpos := List.length_pos_iff.mpr hus
  have hreached : Reaches b 0 receiver ts := h hs (by omega) 0 (strength_of_isOperation hop)
  obtain ⟨m, hm, hreach⟩ := hreached
  refine Reaches.of_le (n := 0) ?_ (by simp) n.zero_le
  cases m with
  | zero => omega
  | succ m =>
    refine ⟨m, by simp only [List.length_append, List.length_cons]; omega, fun rest hr => ?_⟩
    have hpoint : Follows 6 (d :: us ++ rest) := follows_point hd
    rw [List.append_assoc, hreach _ hpoint]
    exact hjoin m rest hr.arguments

theorem front_parenthesised {Ps : List Phrase} (h : Phrase.parenthesised Ps ts) :
    (front (ts ++ rest)).isOperator "(" := by
  cases Ps with
  | nil =>
    obtain ⟨_, us, rfl, ⟨o, rfl, ho⟩, -⟩ := h
    exact ho
  | cons P Ps =>
    obtain ⟨_, us, rfl, ⟨o, rfl, ho⟩, -⟩ := h
    exact ho

theorem readable_binary {p : Position} {op : Operator} {left right : Expr} (hl : Readable left)
    (hr : Readable right) (hleft : op.strength ≤ left.strength)
    (hright : op.strength < right.strength) : Readable (.binary p op left right) := by
  intro b ts hs hb n hn
  have hts := spelled_ne_nil hs
  have hn : 5 - n ≤ op.strength := hn
  have hpos : 1 ≤ op.strength := strength_pos_of_spelled hs
  have hle := op.strength_le
  obtain ⟨⟨us, _, rfl, hsl, _, vs, rfl, ⟨o, rfl, ho⟩, hsr⟩, rfl⟩ := hs
  simp only [List.length_append, List.length_singleton] at hb
  have hvs := List.length_pos_iff.mpr (spelled_ne_nil hsr)
  obtain ⟨k, hk, hkn⟩ : ∃ k, op.strength = 4 - k ∧ k + 1 ≤ n ∧ k ≤ 3 :=
    ⟨4 - op.strength, by omega, by omega, by omega⟩
  have hreached : Reaches b (k + 1) left us := hl hsl (by omega) (k + 1) (by omega)
  obtain ⟨m, hm, hreach⟩ := hreached
  have hread : Reaches b k right vs := hr hsr (by omega) k (by omega)
  refine Reaches.of_le (n := k + 1) ?_ hts hkn.1
  cases m with
  | zero => omega
  | succ m =>
    refine ⟨m, by simp only [List.length_append, List.length_singleton]; omega, fun rest hrest => ?_⟩
    have hrest' : Follows (5 - k) rest := by rwa [show 6 - (k + 1) = 5 - k by omega] at hrest
    have hfollows : Follows (6 - (k + 1)) (o :: (vs ++ rest)) := by
      rw [show 6 - (k + 1) = op.strength + 1 by omega]
      exact follows_operatorAt ho
    have hjoin := hreach (o :: (vs ++ rest)) hfollows
    simp only [List.append_assoc, List.cons_append, List.nil_append]
    rw [hjoin]
    change operands (4 - k) (level b k) (m + 1) left (o :: (vs ++ rest)) = _
    unfold operands
    rw [current_bind, front_cons, ← hk, ho]
    simp only
    rw [advance_bind (kind_of_operatorAt ho), bind_of_ok (hread.read hrest'), hk]
    rfl

theorem readable_of_canonical (hc : e.Canonical) : Readable e := by
  induction e with
  | literal p value =>
    intro b ts hs hb n hn
    obtain ⟨t, rfl, ht, rfl⟩ := hs
    exact (reaches_primary (by simp) fun rest _ => primary_literal ht).of_le (by simp) n.zero_le
  | group p inner ih =>
    intro b ts hs hb n hn
    have hts := spelled_ne_nil hs
    obtain ⟨_, _, rfl, ⟨o, rfl, ho, rfl⟩, us, _, rfl, hs, c, rfl, hclose⟩ := hs
    simp only [List.length_append, List.length_singleton] at hb
    refine (reaches_primary hts fun rest _ => ?_).of_le hts n.zero_le
    simp only [List.append_assoc, List.cons_append, List.nil_append]
    exact primary_group ho hclose ((ih hc).expression hs (by omega) (follows_mark hclose (by simp)))
  | binary p op left right hl hr =>
    obtain ⟨hleft, hright, hcl, hcr⟩ := hc
    exact readable_binary (hl hcl) (hr hcr) hleft hright
  | name p id =>
    intro b ts hs hb n hn
    obtain ⟨t, rfl, ⟨ht, rfl⟩, rfl⟩ := hs
    refine (reaches_primary (by simp) fun rest hr => ?_).of_le (by simp) n.zero_le
    rw [List.singleton_append, primary_identifier ht, hr]
    rfl
  | member p receiver id ih =>
    intro b ts hs hb n hn
    have hts := spelled_ne_nil hs
    obtain ⟨hop, hcr⟩ := hc
    obtain ⟨⟨us, _, rfl, hs, _, _, rfl, ⟨d, rfl, hd⟩, i, rfl, hi, rfl⟩, rfl⟩ := hs
    simp only [List.length_append, List.length_singleton] at hb
    refine readable_receiver [i] (ih hcr) hop hd hs ?_ (by simp) fun m rest hr => ?_
    · simp only [List.length_singleton]
      omega
    · exact members_member hd hi hr
  | call p id arguments ih =>
    intro b ts hs hb n hn
    have hts := spelled_ne_nil hs
    rw [Expr.Canonical, Expr.allCanonical_iff] at hc
    obtain ⟨_, us, rfl, ⟨t, rfl, ⟨ht, rfl⟩, rfl⟩, hargs⟩ := hs
    simp only [List.length_append, List.length_singleton] at hb
    refine (reaches_primary hts fun rest hr => ?_).of_le hts n.zero_le
    have hread : parenthesised (expression b) b (us ++ rest) = .ok (arguments, rest) :=
      Readable.arguments (fun e he => ih e he (hc e he)) hargs (by omega)
    rw [List.append_assoc, List.singleton_append, primary_identifier ht,
      if_pos (front_parenthesised hargs), bind_of_ok hread]
    rfl
  | methodCall p receiver id arguments hr ih =>
    intro b ts hs hb n hn
    obtain ⟨hop, hcr, hca⟩ := hc
    rw [Expr.allCanonical_iff] at hca
    obtain ⟨⟨us, _, rfl, hs, _, _, rfl, ⟨d, rfl, hd⟩, _, vs, rfl, ⟨i, rfl, hi, rfl⟩, hargs⟩, rfl⟩ := hs
    simp only [List.length_append, List.length_singleton] at hb
    refine readable_receiver (i :: vs) (hr hcr) hop hd hs ?_ (by simp) fun m rest _ => ?_
    · simp only [List.length_cons]
      omega
    · exact members_methodCall hd hi (front_parenthesised hargs)
        (Readable.arguments (fun e he => ih e he (hca e he)) hargs (by omega))
  | unknown => exact fun _ _ hs => hs.elim

/-- The tokens of a canonical tree are read as the tree, if what follows does not go on with it. -/
theorem expression_of_spelled {bound : Nat} (hc : e.Canonical) (hs : e.Spelled ts)
    (hb : ts.length ≤ bound) (hr : Follows 0 rest) :
    expression bound (ts ++ rest) = .ok (e, rest) :=
  (readable_of_canonical hc).expression hs hb hr

end BlockScript.Grammar
