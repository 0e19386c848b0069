import BlockScript.Proofs.Syntax.Spelled

/-!
# Reading is sound

What a production takes from the front of a list of tokens spells the tree that it gives, and that
tree is canonical.
-/

namespace BlockScript.Grammar

variable {α β : Type} {ts us : List Token}

/-! ## The small productions -/

theorem bind_ok {x : Production α} {f : α → Production β} {b : β}
    (h : (x >>= f) ts = .ok (b, us)) : ∃ a vs, x ts = .ok (a, vs) ∧ f a vs = .ok (b, us) := by
  change (x ts >>= fun r => f r.1 r.2) = .ok (b, us) at h
  cases hx : x ts with
  | error e => rw [hx] at h; cases h
  | ok r => rw [hx] at h; exact ⟨r.1, r.2, rfl, h⟩

theorem bind_of_ok {x : Production α} {f : α → Production β} {a : α} (h : x ts = .ok (a, us)) :
    (x >>= f) ts = f a us := by
  change (x ts >>= fun r => f r.1 r.2) = _
  rw [h]
  rfl

theorem current_bind {f : Token → Production β} : (current >>= f) ts = f (front ts) ts := rfl

theorem atOperator_bind {text : String} {f : Bool → Production β} :
    (atOperator text >>= f) ts = f ((front ts).isOperator text) ts := rfl

theorem atKeyword_bind {word : Keyword} {f : Bool → Production β} :
    (atKeyword word >>= f) ts = f ((front ts).isKeyword word) ts := rfl

theorem advance_cons {t : Token} (ht : t.kind ≠ .endOfInput) :
    advance (t :: ts) = .ok ((), ts) := by
  change Except.ok ((), if t.kind == .endOfInput then t :: ts else ts) = _
  simp [ht]

theorem expected_ok {what : Expectation} {a : α} (h : expected what ts = .ok (a, us)) : False := by
  cases h

/-- Where the first token is not the end of the input there is one. -/
theorem cons_of_front (h : (front ts).kind ≠ .endOfInput) : ∃ t us, ts = t :: us := by
  cases ts with
  | nil => exact (h rfl).elim
  | cons t us => exact ⟨t, us, rfl⟩

theorem kind_of_isOperator {t : Token} {text : String} (h : t.isOperator text) :
    t.kind = .operator := by
  simp only [Token.isOperator, Bool.and_eq_true, beq_iff_eq] at h
  exact h.1

theorem kind_of_isKeyword {t : Token} {word : Keyword} (h : t.isKeyword word) :
    t.kind = .keyword word := by
  simpa [Token.isKeyword] using h

theorem kind_ne_of_isOperator {t : Token} {text : String} (h : t.isOperator text) :
    t.kind ≠ .endOfInput := by
  simp [kind_of_isOperator h]

theorem kind_ne_of_isKeyword {t : Token} {word : Keyword} (h : t.isKeyword word) :
    t.kind ≠ .endOfInput := by
  simp [kind_of_isKeyword h]

section

variable {f : Unit → Production β} {b : β}

/-- Taking a token that is not the end of the input. -/
theorem advance_bind_ok (hk : (front ts).kind ≠ .endOfInput)
    (h : (advance >>= f) ts = .ok (b, us)) :
    ∃ t vs, ts = t :: vs ∧ f () vs = .ok (b, us) := by
  obtain ⟨t, vs, rfl⟩ := cons_of_front hk
  rw [bind_of_ok (advance_cons (t := t) hk)] at h
  exact ⟨t, vs, rfl, h⟩

theorem advance_operator_ok {text : String} (ht : (front ts).isOperator text)
    (h : (advance >>= f) ts = .ok (b, us)) :
    ∃ t vs, ts = t :: vs ∧ t.isOperator text ∧ f () vs = .ok (b, us) := by
  obtain ⟨t, vs, rfl, hf⟩ := advance_bind_ok (by simp [kind_of_isOperator ht]) h
  exact ⟨t, vs, rfl, ht, hf⟩

theorem operator_bind_ok {text : String} (h : (operator text >>= f) ts = .ok (b, us)) :
    ∃ t vs, ts = t :: vs ∧ t.isOperator text ∧ f () vs = .ok (b, us) := by
  obtain ⟨_, vs, hx, hf⟩ := bind_ok h
  unfold operator at hx
  rw [atOperator_bind] at hx
  split_ifs at hx with ht
  · have hk : (front ts).kind ≠ .endOfInput := by simp [kind_of_isOperator ht]
    obtain ⟨t, ws, rfl⟩ := cons_of_front hk
    rw [advance_cons (t := t) hk] at hx
    cases hx
    exact ⟨t, _, rfl, ht, hf⟩
  · exact (expected_ok hx).elim

theorem keyword_bind_ok {word : Keyword} (h : (keyword word >>= f) ts = .ok (b, us)) :
    ∃ t vs, ts = t :: vs ∧ t.isKeyword word ∧ f () vs = .ok (b, us) := by
  obtain ⟨_, vs, hx, hf⟩ := bind_ok h
  unfold keyword at hx
  rw [atKeyword_bind] at hx
  split_ifs at hx with ht
  · have hk : (front ts).kind ≠ .endOfInput := by simp [kind_of_isKeyword ht]
    obtain ⟨t, ws, rfl⟩ := cons_of_front hk
    rw [advance_cons (t := t) hk] at hx
    cases hx
    exact ⟨t, _, rfl, ht, hf⟩
  · exact (expected_ok hx).elim

end

theorem identifier_ok {id : String} (h : identifier ts = .ok (id, us)) :
    ∃ t, ts = t :: us ∧ t.kind = .identifier ∧ t.value = id := by
  unfold identifier at h
  rw [current_bind] at h
  split_ifs at h with ht
  · have hk : (front ts).kind = .identifier := by simpa using ht
    obtain ⟨t, vs, rfl, h⟩ := advance_bind_ok (by simp [hk]) h
    cases h
    exact ⟨t, rfl, hk, rfl⟩
  · exact (expected_ok h).elim

theorem identifier_bind_ok {f : String → Production β} {b : β}
    (h : (identifier >>= f) ts = .ok (b, us)) :
    ∃ t vs, ts = t :: vs ∧ t.kind = .identifier ∧ f t.value vs = .ok (b, us) := by
  obtain ⟨id, vs, hx, h⟩ := bind_ok h
  obtain ⟨t, rfl, hk, rfl⟩ := identifier_ok hx
  exact ⟨t, vs, rfl, hk, h⟩

theorem after_ok {text : String} {item : Production α} {r : Option α}
    (h : after text item ts = .ok (r, us)) :
    (r = none ∧ us = ts) ∨
      ∃ t vs a, ts = t :: vs ∧ t.isOperator text ∧ item vs = .ok (a, us) ∧ r = some a := by
  unfold after at h
  rw [atOperator_bind] at h
  split_ifs at h with ht
  · obtain ⟨t, vs, rfl, ht, h⟩ := advance_operator_ok ht h
    obtain ⟨a, ws, hx, h⟩ := bind_ok h
    cases h
    exact .inr ⟨t, vs, a, rfl, ht, hx, rfl⟩
  · cases h
    exact .inl ⟨rfl, rfl⟩

/-! ## Lists of items -/

/-- What the production takes from the front is a phrase of its result. -/
def Takes (x : Production α) (P : α → Phrase) : Prop :=
  ∀ ⦃ts a us⦄, x ts = .ok (a, us) → ∃ used, ts = used ++ us ∧ P a used

open Phrase

theorem takes_typeName : Takes typeName Phrase.typeName := by
  intro ts type us h
  obtain ⟨rfl, rfl⟩ | ⟨t, vs, id, rfl, ht, hid, rfl⟩ := after_ok h
  · exact ⟨[], rfl, rfl⟩
  · obtain ⟨t', rfl, ht'⟩ := identifier_ok hid
    exact ⟨[t, t'], rfl, followedBy_cons ht (one_singleton ht')⟩

theorem takes_initial {item : Production α} {P : α → Phrase} (hitem : Takes item P) :
    Takes (after "=" item) fun r => initial (r.map P) := by
  intro ts r us h
  obtain ⟨rfl, rfl⟩ | ⟨t, vs, a, rfl, ht, ha, rfl⟩ := after_ok h
  · exact ⟨[], rfl, rfl⟩
  · obtain ⟨used, rfl, hP⟩ := hitem ha
    exact ⟨t :: used, rfl, followedBy_cons ht hP⟩

theorem takes_commaItems {item : Production α} {P : α → Phrase} (hitem : Takes item P)
    (bound : Nat) : Takes (commaItems item bound) fun xs => commas (xs.map P) := by
  induction bound with
  | zero =>
    intro ts xs us h
    cases h
    exact ⟨[], rfl, rfl⟩
  | succ bound ih =>
    intro ts xs us h
    unfold commaItems at h
    rw [atOperator_bind] at h
    split_ifs at h with ht
    · obtain ⟨t, vs, rfl, ht, h⟩ := advance_operator_ok ht h
      obtain ⟨x, ws, hx, h⟩ := bind_ok h
      obtain ⟨xs, ws', hxs, h⟩ := bind_ok h
      cases h
      obtain ⟨used, rfl, hP⟩ := hitem hx
      obtain ⟨used', rfl, hPs⟩ := ih hxs
      exact ⟨t :: (used ++ used'), by simp, followedBy_cons ht (followedBy_append hP hPs)⟩
    · cases h
      exact ⟨[], rfl, rfl⟩

theorem takes_parenthesised {item : Production α} {P : α → Phrase} (hitem : Takes item P)
    (bound : Nat) :
    Takes (parenthesised item bound) fun xs => Phrase.parenthesised (xs.map P) := by
  intro ts xs us h
  unfold parenthesised at h
  obtain ⟨o, vs, rfl, ho, h⟩ := operator_bind_ok h
  rw [atOperator_bind] at h
  split_ifs at h with ht
  · obtain ⟨c, vs, rfl, hc, h⟩ := advance_operator_ok ht h
    cases h
    exact ⟨[o, c], rfl, followedBy_cons ho (one_singleton hc)⟩
  · obtain ⟨x, ws, hx, h⟩ := bind_ok h
    obtain ⟨xs, ws', hxs, h⟩ := bind_ok h
    obtain ⟨c, vs, rfl, hc, h⟩ := operator_bind_ok h
    cases h
    obtain ⟨used, rfl, hP⟩ := hitem hx
    obtain ⟨used', rfl, hPs⟩ := takes_commaItems hitem bound hxs
    exact ⟨o :: (used ++ (used' ++ [c])), by simp,
      followedBy_cons ho (followedBy_append hP (followedBy_append hPs (one_singleton hc)))⟩

theorem takes_whileKeyword {item : Production α} {P : α → Phrase} (hitem : Takes item P)
    (word : Keyword) (bound : Nat) :
    Takes (whileKeyword word item bound) fun xs => all (xs.map P) := by
  induction bound with
  | zero =>
    intro ts xs us h
    cases h
    exact ⟨[], rfl, rfl⟩
  | succ bound ih =>
    intro ts xs us h
    unfold whileKeyword at h
    rw [atKeyword_bind] at h
    split_ifs at h with ht
    · obtain ⟨x, ws, hx, h⟩ := bind_ok h
      obtain ⟨xs, ws', hxs, h⟩ := bind_ok h
      cases h
      obtain ⟨used, rfl, hP⟩ := hitem hx
      obtain ⟨used', rfl, hPs⟩ := ih hxs
      exact ⟨used ++ used', by simp, followedBy_append hP hPs⟩
    · cases h
      exact ⟨[], rfl, rfl⟩

/-! ## Expressions -/

/-- A canonical tree that binds at least as tightly as `n` says, and its tokens. -/
def Reads (n : Nat) (e : Expr) : Phrase := fun ts =>
  e.Spelled ts ∧ e.Canonical ∧ n ≤ e.strength

/-- Arguments and their tokens. -/
def ReadsAll (es : List Expr) : Phrase := fun ts =>
  Phrase.parenthesised (Expr.spellings es) ts ∧ Expr.AllCanonical es

theorem readsAll_iff {es : List Expr} :
    ReadsAll es ts ↔ Phrase.parenthesised (es.map (Reads 0)) ts := by
  unfold ReadsAll
  rw [Expr.spellings_eq_map, Expr.allCanonical_iff]
  constructor
  · rintro ⟨hs, hc⟩
    exact parenthesised_mono (fun e he us hus => ⟨hus, hc e he, Nat.zero_le _⟩) hs
  · intro h
    refine ⟨parenthesised_mono (fun _ _ _ hr => hr.1) h, fun e he => ?_⟩
    obtain ⟨vs, -, hr⟩ := parenthesised_of_forall (L := fun _ => True) h (by simp) _
      (List.mem_map_of_mem he)
    exact hr.2.1

theorem takes_arguments {nested : Production Expr} (hnested : Takes nested (Reads 0))
    (bound : Nat) :
    Takes (parenthesised nested bound) ReadsAll := by
  intro ts es us h
  obtain ⟨used, rfl, hs⟩ := takes_parenthesised hnested bound h
  exact ⟨used, rfl, readsAll_iff.mpr hs⟩

theorem takes_primary {nested : Production Expr} (hnested : Takes nested (Reads 0)) (bound : Nat) :
    Takes (primary nested bound) (Reads 5) := by
  intro ts e us h
  unfold primary at h
  rw [current_bind] at h
  cases hv : literal? (front ts) with
  | some value =>
    simp only [hv] at h
    have hk : (front ts).kind ≠ .endOfInput := fun hk => by simp [literal?, hk] at hv
    obtain ⟨t, vs, rfl, h⟩ := advance_bind_ok hk h
    cases h
    exact ⟨[t], rfl, one_singleton ⟨hv, rfl⟩, trivial, Nat.le_refl 5⟩
  | none =>
    simp only [hv] at h
    split_ifs at h with hid hopen
    · have hk : (front ts).kind = .identifier := by simpa using hid
      obtain ⟨t, vs, rfl, h⟩ := advance_bind_ok (by simp [hk]) h
      rw [atOperator_bind] at h
      split_ifs at h with hcall
      · obtain ⟨arguments, ws, hargs, h⟩ := bind_ok h
        cases h
        obtain ⟨used, rfl, hs, hc⟩ := takes_arguments hnested bound hargs
        exact ⟨t :: used, rfl, followedBy_cons ⟨⟨hk, rfl⟩, rfl⟩ hs, hc, Nat.le_refl 5⟩
      · cases h
        exact ⟨[t], rfl, one_singleton ⟨⟨hk, rfl⟩, rfl⟩, trivial, Nat.le_refl 5⟩
    · obtain ⟨o, vs, rfl, ho, h⟩ := advance_operator_ok hopen h
      obtain ⟨inner, ws, hinner, h⟩ := bind_ok h
      obtain ⟨c, ws, rfl, hc, h⟩ := operator_bind_ok h
      cases h
      obtain ⟨used, rfl, hs, hcan, -⟩ := hnested hinner
      exact ⟨o :: (used ++ [c]), by simp,
        followedBy_cons ⟨ho, rfl⟩ (followedBy_append hs (one_singleton hc)), hcan, Nat.le_refl 5⟩
    · exact (expected_ok h).elim

theorem isOperation_of_strength {e : Expr} (h : 5 ≤ e.strength) :
    Printer.isOperation e = false := by
  cases e with
  | binary p op left right =>
    have hop : op.strength ≤ 4 := op.strength_le
    have h : 5 ≤ op.strength := h
    omega
  | _ => rfl

theorem strength_of_isOperation {e : Expr} (h : Printer.isOperation e = false) :
    5 ≤ e.strength := by
  cases e with
  | binary => cases h
  | _ => exact Nat.le_refl 5

theorem Reads.mono {m n : Nat} {e : Expr} (hmn : m ≤ n) (h : Reads n e ts) : Reads m e ts :=
  ⟨h.1, h.2.1, Nat.le_trans hmn h.2.2⟩

section

variable {e e' : Expr} {t d i : Token}

theorem Reads.member (he : Reads 5 e ts) (hd : d.isOperator ".") (hi : i.kind = .identifier) :
    Reads 5 (.member e.position e i.value) (ts ++ [d, i]) := by
  obtain ⟨hs, hc, hn⟩ := he
  exact ⟨⟨followedBy_append hs (followedBy_cons hd (one_singleton ⟨hi, rfl⟩)), rfl⟩,
    ⟨isOperation_of_strength hn, hc⟩, Nat.le_refl 5⟩

theorem Reads.methodCall {arguments : List Expr} (he : Reads 5 e ts) (hd : d.isOperator ".")
    (hi : i.kind = .identifier) (harguments : ReadsAll arguments us) :
    Reads 5 (.methodCall e.position e i.value arguments) (ts ++ d :: i :: us) := by
  obtain ⟨hs, hc, hn⟩ := he
  obtain ⟨hs', hc'⟩ := harguments
  exact ⟨⟨followedBy_append hs (followedBy_cons hd (followedBy_cons ⟨hi, rfl⟩ hs')), rfl⟩,
    ⟨isOperation_of_strength hn, hc, hc'⟩, Nat.le_refl 5⟩

theorem Reads.binary {n : Nat} {op : Operator} (he : Reads n e ts)
    (ht : operatorAt n t = some op) (he' : Reads (n + 1) e' us) :
    Reads n (.binary e.position op e e') (ts ++ t :: us) := by
  obtain ⟨hs, hc, hn⟩ := he
  obtain ⟨hs', hc', hn'⟩ := he'
  have hstrength := (Operator.mem_known_of_operatorAt ht).2
  exact ⟨⟨followedBy_append hs (followedBy_cons (hstrength ▸ ht) hs'), rfl⟩,
    ⟨hstrength ▸ hn, hstrength ▸ hn', hc, hc'⟩, Nat.le_of_eq hstrength.symm⟩

end

theorem takes_members {nested : Production Expr} (hnested : Takes nested (Reads 0))
    {bound more : Nat} {e e' : Expr} {pre : List Token} (he : Reads 5 e pre)
    (h : members nested bound more e ts = .ok (e', us)) :
    ∃ used, ts = used ++ us ∧ Reads 5 e' (pre ++ used) := by
  induction more generalizing e pre ts with
  | zero =>
    cases h
    exact ⟨[], rfl, by simpa using he⟩
  | succ more ih =>
    unfold members at h
    rw [atOperator_bind] at h
    split_ifs at h with hpoint
    · obtain ⟨d, vs, rfl, hd, h⟩ := advance_operator_ok hpoint h
      obtain ⟨i, vs, rfl, hi, h⟩ := identifier_bind_ok h
      rw [atOperator_bind] at h
      split_ifs at h with hcall
      · obtain ⟨arguments, ws, hargs, hmore⟩ := bind_ok h
        obtain ⟨used, rfl, harguments⟩ := takes_arguments hnested bound hargs
        obtain ⟨used', rfl, hr⟩ := ih (he.methodCall hd hi harguments) hmore
        exact ⟨d :: i :: (used ++ used'), by simp, by simpa using hr⟩
      · obtain ⟨used', rfl, hr⟩ := ih (he.member hd hi) h
        exact ⟨d :: i :: used', by simp, by simpa using hr⟩
    · cases h
      exact ⟨[], rfl, by simpa using he⟩

theorem takes_secondary {nested : Production Expr} (hnested : Takes nested (Reads 0))
    (bound : Nat) : Takes (secondary nested bound) (Reads 5) := by
  intro ts e us h
  obtain ⟨first, vs, hx, hmore⟩ := bind_ok h
  obtain ⟨pre, rfl, hr⟩ := takes_primary hnested bound hx
  obtain ⟨used, rfl, hr'⟩ := takes_members hnested hr hmore
  exact ⟨pre ++ used, by simp, hr'⟩

/-- A token that is an operator of the language is not the end of the input. -/
theorem kind_of_operatorAt {n : Nat} {t : Token} {op : Operator} (h : operatorAt n t = some op) :
    t.kind ≠ .endOfInput := by
  intro hk
  simp [operatorAt, hk] at h

theorem takes_operands {n : Nat} {operand : Production Expr} (hop : Takes operand (Reads (n + 1)))
    {bound : Nat} {e e' : Expr} {pre : List Token} (he : Reads n e pre)
    (h : operands n operand bound e ts = .ok (e', us)) :
    ∃ used, ts = used ++ us ∧ Reads n e' (pre ++ used) := by
  induction bound generalizing e pre ts with
  | zero =>
    cases h
    exact ⟨[], rfl, by simpa using he⟩
  | succ bound ih =>
    unfold operands at h
    rw [current_bind] at h
    cases ho : operatorAt n (front ts) with
    | some op =>
      simp only [ho] at h
      obtain ⟨t, vs, rfl, hright⟩ := advance_bind_ok (kind_of_operatorAt ho) h
      obtain ⟨right, ws, hx, hmore⟩ := bind_ok hright
      obtain ⟨used, rfl, hoperand⟩ := hop hx
      obtain ⟨used', rfl, hr⟩ := ih (he.binary (t := t) ho hoperand) hmore
      exact ⟨t :: (used ++ used'), by simp, by simpa using hr⟩
    | none =>
      simp only [ho] at h
      cases h
      exact ⟨[], rfl, by simpa using he⟩

theorem takes_chain {n : Nat} {operand : Production Expr} (hop : Takes operand (Reads (n + 1)))
    (bound : Nat) : Takes (chain n operand bound) (Reads n) := by
  intro ts e us h
  obtain ⟨first, vs, hx, hmore⟩ := bind_ok h
  obtain ⟨pre, rfl, hfirst⟩ := hop hx
  obtain ⟨used, rfl, hr⟩ := takes_operands hop (hfirst.mono (Nat.le_succ n)) hmore
  exact ⟨pre ++ used, by simp, hr⟩

theorem takes_expression (bound : Nat) : Takes (expression bound) (Reads 0) := by
  induction bound with
  | zero =>
    intro ts e us h
    exact (expected_ok h).elim
  | succ bound ih =>
    intro ts e us h
    obtain ⟨used, hts, hr⟩ := takes_chain (takes_chain (takes_chain (takes_chain
      (takes_secondary ih bound) bound) bound) bound) bound h
    exact ⟨used, hts, hr.mono (Nat.zero_le 1)⟩

end BlockScript.Grammar
