import BlockScript.Proofs.Typing.Inference

/-!
# The first value that a method returns

In the order of the text the body of a method is a row of expressions, of which some are returned.
The first of these decides the return type of a method that declares none: what is returned behind
it has to be assignable to its type, and calls of the method to itself have its type behind it and
may be anything up to it.
-/

namespace BlockScript

/-! ## Bodies in the order of the text -/

/-- An expression that stands in a statement, and whether the statement returns its value. -/
structure Occurrence where
  value : TypedExpr
  isReturned : Bool

namespace Occurrence

variable {o : Occurrence} {before after : List Occurrence}

/-- The type that is returned, if one is. -/
def returned? (o : Occurrence) : Option Ty := if o.isReturned then some o.value.type else none

/-- The type of the first value returned. -/
def firstReturned? : List Occurrence → Option Ty
  | [] => none
  | o :: rest => o.returned?.or (firstReturned? rest)

theorem firstReturned?_append (before after : List Occurrence) :
    firstReturned? (before ++ after) = (firstReturned? before).or (firstReturned? after) := by
  induction before with
  | nil => rw [firstReturned?, Option.none_or, List.nil_append]
  | cons o before ih => rw [List.cons_append, firstReturned?, ih, firstReturned?, Option.or_assoc]

theorem firstReturned?_eq_none (h : ∀ o ∈ before, o.isReturned = false) :
    firstReturned? before = none := by
  induction before with
  | nil => rfl
  | cons o before ih =>
    rw [List.forall_mem_cons] at h
    rw [firstReturned?, ih h.2, Option.or_none, returned?, h.1]
    rfl

theorem firstReturned?_eq_some (hbefore : ∀ o ∈ before, o.isReturned = false)
    (ho : o.isReturned = true) : firstReturned? (before ++ o :: after) = some o.value.type := by
  have hreturned : o.returned? = some o.value.type := if_pos ho
  rw [firstReturned?_append, firstReturned?_eq_none hbefore, Option.none_or, firstReturned?,
    hreturned, Option.some_or]

end Occurrence

namespace TypedStmt

mutual

/-- The expressions that stand in a statement, in the order of the text. -/
def occurrences : TypedStmt → List Occurrence
  | .expression _ value => [⟨value, false⟩]
  | .declare b => b.value.toList.map (⟨·, false⟩)
  | .assign _ target value => [⟨target, false⟩, ⟨value, false⟩]
  | .conditional _ condition thenBody elseBody =>
    ⟨condition, false⟩ :: (occurrencesAll thenBody ++ occurrencesAll elseBody)
  | .forLoop _ _ iterable _ body => ⟨iterable, false⟩ :: occurrencesAll body
  | .whileLoop _ condition body => ⟨condition, false⟩ :: occurrencesAll body
  | .ret _ value => [⟨value, true⟩]

def occurrencesAll : List TypedStmt → List Occurrence
  | [] => []
  | s :: rest => s.occurrences ++ occurrencesAll rest

end

end TypedStmt

open Occurrence TypedStmt

variable {S : Store} {f : FunctionId} {Γ : Context} {r : Option Ty} {s : TypedStmt}
  {ss : List TypedStmt} {o : Occurrence} {os before after : List Occurrence}

/-! ## What is inferred -/

theorem TypedStmt.firstReturn?_eq (s : TypedStmt) :
    s.firstReturn? = firstReturned? s.occurrences := by
  have hall {ss : List TypedStmt}
      (ih : ∀ s ∈ ss, s.firstReturn? = firstReturned? s.occurrences) :
      firstReturnOf? ss = firstReturned? (occurrencesAll ss) := by
    induction ss with
    | nil => rfl
    | cons s ss ih' =>
      rw [List.forall_mem_cons] at ih
      rw [firstReturnOf?, ih.1, ih' ih.2, occurrencesAll, firstReturned?_append]
  induction s with
  | expression | assign | ret => rfl
  | declare b => exact (firstReturned?_eq_none (by simp [occurrences])).symm
  | conditional p condition thenBody elseBody hthen helse =>
    rw [firstReturn?, hall hthen, hall helse, ← firstReturned?_append]
    rfl
  | forLoop p name iterable slot body ih | whileLoop p condition body ih =>
    rw [firstReturn?, hall ih]
    rfl

theorem TypedStmt.firstReturnOf?_eq (ss : List TypedStmt) :
    firstReturnOf? ss = firstReturned? (occurrencesAll ss) := by
  induction ss with
  | nil => rfl
  | cons s ss ih =>
    rw [firstReturnOf?, firstReturn?_eq, ih, occurrencesAll, firstReturned?_append]

/-- The calls in each expression are as what is known behind the ones before it has them. -/
def Occurrence.Follow (S : Store) (f : FunctionId) : Option Ty → List Occurrence → Prop
  | _, [] => True
  | r, o :: rest =>
    o.value.Everywhere (TypedExpr.Calls S (S.known f r)) ∧ Follow S f (r.or o.returned?) rest

theorem Occurrence.follow_append : Follow S f r (before ++ after) ↔
    Follow S f r before ∧ Follow S f (r.or (firstReturned? before)) after := by
  induction before generalizing r with
  | nil => rw [firstReturned?, Option.or_none, List.nil_append, Follow, true_and]
  | cons o before ih =>
    rw [List.cons_append, Follow, Follow, ih, firstReturned?, Option.or_assoc, and_assoc]

theorem Occurrence.Follow.of_append (h : Follow S f r (before ++ o :: after)) :
    o.value.Everywhere (TypedExpr.Calls S (S.known f (r.or (firstReturned? before)))) :=
  (follow_append.mp h).2.1

/-- An expression that is not returned leaves what is known as it is. -/
theorem Occurrence.follow_cons {e : TypedExpr} : Follow S f r (⟨e, false⟩ :: after) ↔
    e.Everywhere (TypedExpr.Calls S (S.known f r)) ∧ Follow S f r after := by
  have hnone : returned? ⟨e, false⟩ = none := rfl
  rw [Follow, hnone, Option.or_none]

/-- Statements infer in order what the expressions in them infer in order. -/
theorem TypedStmt.AllInfer.follow
    (h : ∀ s ∈ ss, ∀ r, s.Infers S f r → Follow S f r s.occurrences) (hss : AllInfer S f r ss) :
    Follow S f r (occurrencesAll ss) := by
  induction ss generalizing r with
  | nil => trivial
  | cons s ss ih =>
    rw [List.forall_mem_cons] at h
    have hrest := ih h.2 hss.2
    rw [firstReturn?_eq] at hrest
    exact follow_append.mpr ⟨h.1 r hss.1, hrest⟩

theorem TypedStmt.Infers.follow (h : s.Infers S f r) : Follow S f r s.occurrences := by
  induction s generalizing r with
  | expression p value | ret p value => exact ⟨h, trivial⟩
  | declare b =>
    cases hvalue : b.value with
    | none => simp [occurrences, hvalue, Follow]
    | some value => simpa [occurrences, hvalue, Follow] using h value hvalue
  | assign p target value => exact follow_cons.mpr ⟨h.1, follow_cons.mpr ⟨h.2, trivial⟩⟩
  | conditional p condition thenBody elseBody hthen helse =>
    obtain ⟨hcondition, hthenBody, helseBody⟩ := h
    have helseBody := helseBody.follow fun s hs r h => helse s hs h
    rw [firstReturnOf?_eq] at helseBody
    have hthenBody := hthenBody.follow fun s hs r h => hthen s hs h
    exact follow_cons.mpr ⟨hcondition, follow_append.mpr ⟨hthenBody, helseBody⟩⟩
  | forLoop p name iterable slot body ih | whileLoop p condition body ih =>
    exact follow_cons.mpr ⟨h.1, h.2.follow fun s hs r h => ih s hs h⟩

/-! ## What is checked -/

/-- An expression is checked where the functions of the context are known, and if it is returned,
the return type takes it. -/
structure Occurrence.Fits (S : Store) (f : FunctionId)
    (functions : String → Nat → Option FunctionId) (o : Occurrence) : Prop where
  checked : ∃ Γ : Context, Γ.functions = functions ∧ o.value.Checked S Γ
  accepted : o.isReturned = true →
    ∃ t, (S.function f).returns = some t ∧ t.accepts o.value.type = true

theorem Occurrence.Fits.of_checked {e : TypedExpr} (h : e.Checked S Γ) :
    Fits S f Γ.functions ⟨e, false⟩ :=
  ⟨⟨Γ, rfl, h⟩, nofun⟩

theorem Context.functions_after (Γ : Context) (s : TypedStmt) :
    (Γ.after s).functions = Γ.functions := by
  cases s <;> rfl

theorem Context.functions_declareAll (Γ : Context) (ps : List Param) (vs : List SlotId) :
    (Γ.declareAll ps vs).functions = Γ.functions := by
  induction ps generalizing Γ vs with
  | nil => rfl
  | cons p ps ih =>
    cases vs with
    | nil => rfl
    | cons v vs => exact ih (Γ.declare p.name v) vs

theorem TypedStmt.AllChecked.fits
    (h : ∀ s ∈ ss, ∀ Γ, s.Checked S f Γ → ∀ o ∈ s.occurrences, o.Fits S f Γ.functions)
    (hss : AllChecked S f Γ ss) : ∀ o ∈ occurrencesAll ss, o.Fits S f Γ.functions := by
  induction ss generalizing Γ with
  | nil => nofun
  | cons s ss ih =>
    rw [List.forall_mem_cons] at h
    have hrest := ih h.2 hss.2
    rw [Context.functions_after] at hrest
    exact List.forall_mem_append.mpr ⟨h.1 Γ hss.1, hrest⟩

theorem TypedStmt.Checked.fits (h : s.Checked S f Γ) :
    ∀ o ∈ s.occurrences, o.Fits S f Γ.functions := by
  induction s generalizing Γ with
  | expression p value => exact List.forall_mem_singleton.mpr (.of_checked h)
  | declare b =>
    intro o ho
    obtain ⟨e, he, rfl⟩ := List.mem_map.mp ho
    exact .of_checked (h e (Option.mem_toList.mp he)).1
  | assign p target value =>
    exact List.forall_mem_cons.mpr
      ⟨.of_checked h.1, List.forall_mem_singleton.mpr (.of_checked h.2.1)⟩
  | conditional p condition thenBody elseBody hthen helse =>
    obtain ⟨hcondition, -, hthenBody, helseBody⟩ := h
    refine List.forall_mem_cons.mpr ⟨.of_checked hcondition, List.forall_mem_append.mpr ⟨?_, ?_⟩⟩
    · exact hthenBody.fits fun s hs Γ h => hthen s hs h
    · exact helseBody.fits fun s hs Γ h => helse s hs h
  | forLoop p name iterable slot body ih =>
    obtain ⟨hiterable, -, -, hbody⟩ := h
    have hbody : ∀ o ∈ occurrencesAll body, o.Fits S f (Γ.declare name slot).functions :=
      hbody.fits fun s hs Γ h => ih s hs h
    exact List.forall_mem_cons.mpr ⟨.of_checked hiterable, hbody⟩
  | whileLoop p condition body ih =>
    obtain ⟨hcondition, -, hbody⟩ := h
    exact List.forall_mem_cons.mpr
      ⟨.of_checked hcondition, hbody.fits fun s hs Γ h => ih s hs h⟩
  | ret p value => exact List.forall_mem_singleton.mpr ⟨⟨Γ, rfl, h.1⟩, fun _ => h.2⟩

/-- If the expression is a call by name, it goes to what is known under that name and the number of
arguments. -/
def TypedExpr.Reaches (functions : String → Nat → Option FunctionId) : TypedExpr → Prop
  | .call _ id arguments g _ => functions id arguments.length = some g
  | .literal .. | .group .. | .binary .. | .name .. | .member .. | .methodCall .. => True

theorem TypedExpr.Checked.reaches {e : TypedExpr} (h : e.Checked S Γ) :
    e.Everywhere (Reaches Γ.functions) := by
  have hall {es : List TypedExpr} {params : List Ty}
      (ih : ∀ e ∈ es, e.Checked S Γ → e.Everywhere (Reaches Γ.functions))
      (hes : AllChecked S Γ params es) : AllEverywhere (Reaches Γ.functions) es := by
    induction es generalizing params with
    | nil => trivial
    | cons e es ih' =>
      rw [List.forall_mem_cons] at ih
      exact ⟨ih.1 hes.1, ih' ih.2 hes.2.2⟩
  induction e with
  | literal | name => trivial
  | group p inner t ih => exact ⟨trivial, ih h.1⟩
  | binary p op left right t hl hr => exact ⟨trivial, hl h.1, hr h.2.1⟩
  | member p receiver id slot t ih => exact ⟨trivial, ih h.1⟩
  | call p id arguments g t ih => exact ⟨h.1, hall ih h.2.2.1⟩
  | methodCall p receiver id arguments g t hr ih =>
    exact ⟨trivial, hr h.1, hall ih h.2.2.2.1⟩

/-! ## Methods -/

namespace TypedMethod

variable {m : TypedMethod}

def occurrences (m : TypedMethod) : List Occurrence := occurrencesAll m.body

/-- If the expression is a call of the method to itself, which one by its name with as many
arguments as it has parameters is, it has the type `t`. -/
def Recurses (m : TypedMethod) (t : Ty) : TypedExpr → Prop
  | .call _ id arguments g t' =>
    ((id, arguments.length) = m.key → g = m.function) ∧ (g = m.function → t' = t)
  | .methodCall _ _ _ _ g t' => g = m.function → t' = t
  | .literal .. | .group .. | .binary .. | .name .. | .member .. => True

/-- The method returns no value. -/
structure ReturnsNil (S : Store) (m : TypedMethod) : Prop where
  returns : (S.function m.function).returns = some .nil
  calls : ∀ o ∈ m.occurrences, o.value.Everywhere (m.Recurses .any)

/-- The method has the type of `value`, which is the first value it returns: what is returned behind
it is assignable to it, and calls of the method to itself have its type just behind it. -/
structure ReturnsFirst (S : Store) (m : TypedMethod) (before : List Occurrence) (value : TypedExpr)
    (after : List Occurrence) : Prop where
  returns : (S.function m.function).returns = some value.type
  accepted : ∀ o ∈ after, o.isReturned = true → value.type.accepts o.value.type = true
  callsBefore : ∀ o ∈ before, o.value.Everywhere (m.Recurses .any)
  callsIn : value.Everywhere (m.Recurses .any)
  callsAfter : ∀ o ∈ after, o.value.Everywhere (m.Recurses value.type)

/-- The return type of a method without a declared one, and the calls of it to itself. -/
structure InfersReturn (S : Store) (m : TypedMethod) : Prop where
  none : (∀ o ∈ m.occurrences, o.isReturned = false) → m.ReturnsNil S
  first : ∀ before value after, m.occurrences = before ++ ⟨value, true⟩ :: after →
    (∀ o ∈ before, o.isReturned = false) → m.ReturnsFirst S before value after

/-- What is known of the function of a method is the type of its calls to itself. -/
theorem recurses_of_calls {e : TypedExpr}
    (hcalls : e.Everywhere (TypedExpr.Calls S (S.known m.function r)))
    (hreaches : e.Everywhere (TypedExpr.Reaches (Γ.bind m).functions)) :
    e.Everywhere (m.Recurses (r.getD .any)) := by
  have hknown {g : FunctionId} {t : Ty} (ht : t = (S.known m.function r g).getD .any)
      (hg : g = m.function) : t = r.getD .any := by
    rw [ht, Store.known, if_pos hg]
  refine (hcalls.and hreaches).imp fun e he => ?_
  cases e with
  | call p id arguments g t =>
    obtain ⟨⟨-, ht⟩, hg⟩ := he
    refine ⟨fun hkey => ?_, hknown ht⟩
    have hbound : (Γ.bind m).functions id arguments.length = some m.function := if_pos hkey
    exact Option.some.inj (hg.symm.trans hbound)
  | methodCall p receiver id arguments g t => exact hknown he.1.2
  | literal | group | binary | name | member => trivial

theorem Checked.infersReturn (hchecked : m.Checked S (Γ.bind m)) (hinferred : m.Inferred S)
    (hdeclared : m.declared = none) : m.InfersReturn S := by
  obtain ⟨-, declared, hnamed, hreturns, hbody⟩ := hinferred
  obtain rfl : declared = none := by
    rw [hdeclared] at hnamed
    cases hnamed
    rfl
  rw [firstReturnOf?_eq, Option.none_or] at hreturns
  have hfollow : Follow S m.function none m.occurrences := hbody.follow fun s _ r h => h.follow
  have hfits : ∀ o ∈ m.occurrences, o.Fits S m.function (Γ.bind m).functions := by
    have h := hchecked.body.fits fun s _ Γ h => h.fits
    rwa [Context.functions_declareAll] at h
  -- What stands before an expression decides the type of the calls in it.
  have hcalls (before : List Occurrence) (o : Occurrence) (after : List Occurrence)
      (hsplit : m.occurrences = before ++ o :: after) :
      o.value.Everywhere (m.Recurses ((firstReturned? before).getD .any)) := by
    obtain ⟨Δ, hΔ, he⟩ := (hfits o (by simp [hsplit])).checked
    rw [hsplit] at hfollow
    exact recurses_of_calls hfollow.of_append (hΔ ▸ he.reaches)
  have hopen {before after : List Occurrence} (hsplit : m.occurrences = before ++ after)
      (hbefore : ∀ o ∈ before, o.isReturned = false) :
      ∀ o ∈ before, o.value.Everywhere (m.Recurses .any) := by
    intro o ho
    obtain ⟨first, last, rfl⟩ := List.append_of_mem ho
    have hnone := firstReturned?_eq_none fun o ho => hbefore o (List.mem_append_left _ ho)
    have h := hcalls first o (last ++ after) (by simp [hsplit])
    rwa [hnone] at h
  refine ⟨fun hnone => ⟨?_, hopen (List.append_nil _).symm hnone⟩,
    fun before value after hsplit hbefore => ?_⟩
  · rw [hreturns]
    exact congrArg some (congrArg (Option.getD · Ty.nil) (firstReturned?_eq_none hnone))
  have hreturns : (S.function m.function).returns = some value.type := by
    rw [hreturns]
    have h : firstReturned? (before ++ ⟨value, true⟩ :: after) = some value.type :=
      firstReturned?_eq_some hbefore rfl
    rw [← hsplit] at h
    exact congrArg some (congrArg (Option.getD · Ty.nil) h)
  refine ⟨hreturns, fun o ho hreturned => ?_, hopen hsplit hbefore, ?_, fun o ho => ?_⟩
  · obtain ⟨t, ht, haccepts⟩ := (hfits o (by simp [hsplit, ho])).accepted hreturned
    rw [hreturns] at ht
    cases ht
    exact haccepts
  · have h := hcalls before ⟨value, true⟩ after hsplit
    rwa [firstReturned?_eq_none hbefore] at h
  · obtain ⟨middle, last, rfl⟩ := List.append_of_mem ho
    have h := hcalls (before ++ ⟨value, true⟩ :: middle) o last (by simp [hsplit])
    rwa [firstReturned?_eq_some hbefore rfl] at h

end TypedMethod

end BlockScript

namespace BlockScript.Program

variable {s : Store} {parent : Option FrameId} {p : Program} {typed : TypedProgram} {a : Analysis}

/-- The return type of a method without a declared one is that of the first value that is returned
in the order of the text, or nil. Until the end of that statement, calls of the method to itself may
be anything. -/
theorem check_infers_returns (hs : s.WellFormed) (hparent : ∀ f ∈ parent, s.Has f)
    (hcheck : p.check s parent = .ok typed a) :
    typed.erase = p ∧ ∀ m ∈ typed.methods, m.declared = none → m.InfersReturn a.store := by
  have hsettled := settled_of_check hs hparent hcheck
  have hinferred := Check.gives_program_inferred (Analysis.sound_start hs hparent) rfl p
  refine ⟨hsettled.erase, fun m hm hdeclared => ?_⟩
  obtain ⟨before, after, hsplit⟩ := List.append_of_mem hm
  have hmethods := hsettled.checked.methods
  rw [hsplit] at hmethods
  exact hmethods.of_append.infersReturn ((hinferred.of_ok hcheck).methods m hm) hdeclared

/-- Of the four expressions in the method that halves, the third one is the first returned, and
there are calls of the method to itself on both sides of it. -/
theorem check_infers_returns_halving : ∃ p typed a, Program.parse halving = .ok p ∧
    p.check .initial none = .ok typed a ∧ Store.initial.WellFormed ∧
    (typed.methods.map fun m => m.occurrences.map Occurrence.isReturned) =
      [[false, false, true, true], [true]] ∧
    ∀ m ∈ typed.methods, m.declared = none ∧ m.InfersReturn a.store := by
  have haccepted : isAccepted halving (fun typed _ =>
      decide ((typed.methods.map fun m => m.occurrences.map Occurrence.isReturned) =
        [[false, false, true, true], [true]] ∧ ∀ m ∈ typed.methods, m.declared = none)) = true := by
    decide +kernel
  obtain ⟨p, typed, a, hparse, hcheck, hmethods⟩ := exists_of_isAccepted haccepted
  obtain ⟨hoccurrences, hdeclared⟩ := of_decide_eq_true hmethods
  have hinitial := Store.wellFormed_initial
  refine ⟨p, typed, a, hparse, hcheck, hinitial, hoccurrences, fun m hm => ⟨hdeclared m hm, ?_⟩⟩
  exact (check_infers_returns hinitial (by simp) hcheck).2 m hm (hdeclared m hm)

end BlockScript.Program
