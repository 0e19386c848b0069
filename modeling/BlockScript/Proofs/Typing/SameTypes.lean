import BlockScript.Proofs.Typing.Declared
import BlockScript.Proofs.Typing.FirstReturn

/-!
# The same types in two contexts

A method is checked in a context that knows the methods before it. Where two contexts know
different methods under other numbers, but have the same types for all names that both know, the
same body gets the same types.
-/

namespace BlockScript

/-! ## The types in a tree -/

namespace TypedExpr

mutual

/-- The types of an expression and of all its parts, the whole before the parts. -/
def types : TypedExpr → List Ty
  | .literal _ _ t | .name _ _ _ t => [t]
  | .group _ inner t => t :: inner.types
  | .binary _ _ left right t => t :: (left.types ++ right.types)
  | .member _ receiver _ _ t => t :: receiver.types
  | .call _ _ arguments _ t => t :: typesAll arguments
  | .methodCall _ receiver _ arguments _ t => t :: (receiver.types ++ typesAll arguments)

def typesAll : List TypedExpr → List Ty
  | [] => []
  | e :: es => e.types ++ typesAll es

end

theorem head?_types (e : TypedExpr) : e.types.head? = some e.type := by
  cases e <;> rfl

theorem type_eq_of_types {e e' : TypedExpr} (h : e'.types = e.types) : e'.type = e.type := by
  have hhead := e'.head?_types
  rw [h, head?_types] at hhead
  exact (Option.some.inj hhead).symm

theorem length_eq_of_eraseAll {es es' : List TypedExpr} (h : eraseAll es' = eraseAll es) :
    es'.length = es.length := by
  rw [← length_eraseAll, h, length_eraseAll]

theorem map_type (value : Option TypedExpr) :
    value.map type = (value.map types).bind List.head? := by
  cases value with
  | none => rfl
  | some e => exact e.head?_types.symm

end TypedExpr

namespace Occurrence

/-- The types of an expression, and whether it is returned. -/
def types (o : Occurrence) : Bool × List Ty := (o.isReturned, o.value.types)

theorem types_congr {e e' : TypedExpr} (h : e'.types = e.types) (isReturned : Bool) :
    types ⟨e', isReturned⟩ = types ⟨e, isReturned⟩ :=
  congrArg (isReturned, ·) h

theorem returned?_congr {o o' : Occurrence} (h : o'.types = o.types) :
    o'.returned? = o.returned? := by
  have hreturned : o'.isReturned = o.isReturned := congrArg Prod.fst h
  have htype := TypedExpr.type_eq_of_types (congrArg Prod.snd h)
  rw [returned?, hreturned, htype, returned?]

theorem firstReturned?_congr {os os' : List Occurrence} (h : os'.map types = os.map types) :
    firstReturned? os' = firstReturned? os := by
  induction os generalizing os' with
  | nil => rw [List.map_eq_nil_iff.mp h]
  | cons o os ih =>
    obtain ⟨o', os', rfl, ho, hos⟩ := List.map_eq_cons_iff.mp h
    rw [firstReturned?, returned?_congr ho, ih hos, firstReturned?]

end Occurrence

/-! ## Contexts with the same types -/

/-- Names that stand for something in both contexts have the same types, also while the return types
of the methods `f` and `g` are open. -/
structure SameTypes (S T : Store) (f g : FunctionId) (Γ Δ : Context) : Prop where
  catalog : T.catalog = S.catalog
  members : T.members = S.members
  fields : ∀ t id v, (S.membersOf t).fields.find? id = some v → (T.slot v).type = (S.slot v).type
  methods : ∀ t k x, (S.membersOf t).methods.find? k = some x → ∀ r, T.known g r x = S.known f r x
  slots : ∀ id v w, Γ.slots id = some v → Δ.slots id = some w → (T.slot w).type = (S.slot v).type
  functions : ∀ name arity x y, Γ.functions name arity = some x → Δ.functions name arity = some y →
    ∀ r, T.known g r y = S.known f r x

section

variable {S T : Store} {f g : FunctionId} {Γ Δ : Context} {r : Option Ty}

theorem SameTypes.declare (h : SameTypes S T f g Γ Δ) (name : String) {v w : SlotId}
    (hvw : (T.slot w).type = (S.slot v).type) :
    SameTypes S T f g (Γ.declare name v) (Δ.declare name w) := by
  refine { h with slots := fun id v' w' hv hw => ?_ }
  dsimp only [Context.declare] at hv hw
  split at hv
  · rename_i hid
    rw [if_pos hid] at hw
    cases hv
    cases hw
    exact hvw
  · rename_i hid
    rw [if_neg hid] at hw
    exact h.slots id v' w' hv hw

theorem SameTypes.declareAll (h : SameTypes S T f g Γ Δ) (ps : List Param) {vs ws : List SlotId}
    (hvs : (ws.map fun w => (T.slot w).type) = vs.map fun v => (S.slot v).type) :
    SameTypes S T f g (Γ.declareAll ps vs) (Δ.declareAll ps ws) := by
  induction ps generalizing Γ Δ vs ws with
  | nil => exact h
  | cons p ps ih =>
    cases vs with
    | nil =>
      rw [List.map_nil, List.map_eq_nil_iff] at hvs
      rw [hvs]
      exact h
    | cons v vs =>
      obtain ⟨w, ws, rfl, hvw, hrest⟩ := List.map_eq_cons_iff.mp hvs
      exact ih (h.declare p.name hvw) hrest

theorem SameTypes.membersOf (h : SameTypes S T f g Γ Δ) (t : Ty) :
    T.membersOf t = S.membersOf t := by
  rw [Store.membersOf, h.members, Store.membersOf]

/-! ## Expressions -/

/-- The findings about an expression are right, and the types of calls are what is known. -/
structure TypedExpr.Established (S : Store) (f : FunctionId) (Γ : Context) (r : Option Ty)
    (e : TypedExpr) : Prop where
  checked : e.Checked S Γ
  calls : e.Everywhere (TypedExpr.Calls S (S.known f r))

/-- The same expression has the same types. -/
def TypedExpr.Determined (S T : Store) (f g : FunctionId) (Γ Δ : Context) (r : Option Ty)
    (e : TypedExpr) : Prop :=
  ∀ e' : TypedExpr, e'.erase = e.erase → e.Established S f Γ r → e'.Established T g Δ r →
    e'.types = e.types

theorem TypedExpr.typesAll_eq (es : List TypedExpr) {es' : List TypedExpr} {ps ps' : List Ty}
    (h : ∀ e ∈ es, e.Determined S T f g Γ Δ r) (herase : eraseAll es' = eraseAll es)
    (hes : AllChecked S Γ ps es) (hcalls : AllEverywhere (Calls S (S.known f r)) es)
    (hes' : AllChecked T Δ ps' es') (hcalls' : AllEverywhere (Calls T (T.known g r)) es') :
    typesAll es' = typesAll es := by
  induction es generalizing es' ps ps' with
  | nil =>
    cases es' with
    | nil => rfl
    | cons e' es' => cases herase
  | cons e es ih =>
    cases es' with
    | nil => cases herase
    | cons e' es' =>
      rw [List.forall_mem_cons] at h
      rw [eraseAll, eraseAll] at herase
      obtain ⟨he, hrest⟩ := List.cons.inj herase
      rw [typesAll, typesAll, h.1 e' he ⟨hes.1, hcalls.1⟩ ⟨hes'.1, hcalls'.1⟩,
        ih h.2 hrest hes.2.2 hcalls.2 hes'.2.2 hcalls'.2]

theorem TypedExpr.determined (h : SameTypes S T f g Γ Δ) (e : TypedExpr) :
    e.Determined S T f g Γ Δ r := by
  induction e with
  | literal p value t =>
    rintro e' herase ⟨htype, -⟩ ⟨htype', -⟩
    cases e' <;> cases herase
    exact congrArg ([·]) (Except.ok.inj (htype'.symm.trans htype))
  | group p inner t ih =>
    intro e' herase he he'
    cases e' with
    | group p' inner' t' =>
      rw [erase, erase, Expr.group.injEq] at herase
      obtain ⟨hchecked, rfl⟩ := he.checked
      obtain ⟨hchecked', rfl⟩ := he'.checked
      have hinner := ih inner' herase.2 ⟨hchecked, he.calls.2⟩ ⟨hchecked', he'.calls.2⟩
      rw [types, types, hinner, type_eq_of_types hinner]
    | _ => cases herase
  | binary p op left right t hl hr =>
    intro e' herase he he'
    cases e' with
    | binary p' op' left' right' t' =>
      rw [erase, erase, Expr.binary.injEq] at herase
      obtain ⟨-, rfl, hleft, hright⟩ := herase
      obtain ⟨hchecked, hcheckedr, htype⟩ := he.checked
      obtain ⟨hchecked', hcheckedr', htype'⟩ := he'.checked
      have hleft := hl left' hleft ⟨hchecked, he.calls.2.1⟩ ⟨hchecked', he'.calls.2.1⟩
      have hright := hr right' hright ⟨hcheckedr, he.calls.2.2⟩ ⟨hcheckedr', he'.calls.2.2⟩
      rw [type_eq_of_types hleft, type_eq_of_types hright, htype] at htype'
      rw [types, types, hleft, hright, Option.some.inj htype']
    | _ => cases herase
  | name p id slot t =>
    rintro e' herase ⟨⟨hslot, rfl⟩, -⟩ ⟨hchecked', -⟩
    cases e' with
    | name p' id' slot' t' =>
      cases herase
      obtain ⟨hslot', rfl⟩ := hchecked'
      exact congrArg ([·]) (h.slots id slot slot' hslot hslot')
    | _ => cases herase
  | member p receiver id slot t ih =>
    intro e' herase he he'
    cases e' with
    | member p' receiver' id' slot' t' =>
      rw [erase, erase, Expr.member.injEq] at herase
      obtain ⟨-, hreceiver, rfl⟩ := herase
      obtain ⟨hchecked, hslot, rfl⟩ := he.checked
      obtain ⟨hchecked', hslot', rfl⟩ := he'.checked
      have hreceiver := ih receiver' hreceiver ⟨hchecked, he.calls.2⟩ ⟨hchecked', he'.calls.2⟩
      rw [type_eq_of_types hreceiver, h.membersOf, hslot] at hslot'
      cases hslot'
      rw [types, types, hreceiver, h.fields _ _ slot hslot]
    | _ => cases herase
  | call p id arguments x t ih =>
    intro e' herase he he'
    cases e' with
    | call p' id' arguments' x' t' =>
      rw [erase, erase, Expr.call.injEq] at herase
      obtain ⟨-, rfl, harguments⟩ := herase
      obtain ⟨hx, -, hchecked, -⟩ := he.checked
      obtain ⟨hx', -, hchecked', -⟩ := he'.checked
      obtain ⟨⟨-, rfl⟩, hcalls⟩ := he.calls
      obtain ⟨⟨-, rfl⟩, hcalls'⟩ := he'.calls
      rw [length_eq_of_eraseAll harguments] at hx'
      rw [types, types, typesAll_eq arguments ih harguments hchecked hcalls hchecked' hcalls',
        h.functions _ _ x x' hx hx']
    | _ => cases herase
  | methodCall p receiver id arguments x t hr ih =>
    intro e' herase he he'
    cases e' with
    | methodCall p' receiver' id' arguments' x' t' =>
      rw [erase, erase, Expr.methodCall.injEq] at herase
      obtain ⟨-, hreceiver, rfl, harguments⟩ := herase
      obtain ⟨hchecked, hx, -, hcheckedAll, -⟩ := he.checked
      obtain ⟨hchecked', hx', -, hcheckedAll', -⟩ := he'.checked
      obtain ⟨⟨-, rfl⟩, hcalls, hcallsAll⟩ := he.calls
      obtain ⟨⟨-, rfl⟩, hcalls', hcallsAll'⟩ := he'.calls
      have hreceiver := hr receiver' hreceiver ⟨hchecked, hcalls⟩ ⟨hchecked', hcalls'⟩
      rw [type_eq_of_types hreceiver, length_eq_of_eraseAll harguments, Store.findMethod?,
        h.membersOf] at hx'
      cases hx.symm.trans hx'
      rw [types, types, hreceiver,
        typesAll_eq arguments ih harguments hcheckedAll hcallsAll hcheckedAll' hcallsAll',
        h.methods _ _ x hx]
    | _ => cases herase

/-! ## Statements -/

namespace TypedStmt

/-- As `TypedExpr.Established`, for a statement whose variables have the types announced. -/
structure Established (S : Store) (f : FunctionId) (Γ : Context) (r : Option Ty) (s : TypedStmt) :
    Prop where
  checked : s.Checked S f Γ
  infers : s.Infers S f r
  announced : ∀ d ∈ s.declarations, d.Announced S

/-- As `Established`, for statements in order. -/
structure AllEstablished (S : Store) (f : FunctionId) (Γ : Context) (r : Option Ty)
    (ss : List TypedStmt) : Prop where
  checked : AllChecked S f Γ ss
  infers : AllInfer S f r ss
  announced : ∀ d ∈ declarationsAll ss, d.Announced S

theorem AllEstablished.head {s : TypedStmt} {ss : List TypedStmt}
    (h : AllEstablished S f Γ r (s :: ss)) : s.Established S f Γ r :=
  ⟨h.checked.1, h.infers.1, fun d hd => h.announced d (List.mem_append_left _ hd)⟩

theorem AllEstablished.tail {s : TypedStmt} {ss : List TypedStmt}
    (h : AllEstablished S f Γ r (s :: ss)) :
    AllEstablished S f (Γ.after s) (r.or s.firstReturn?) ss :=
  ⟨h.checked.2, h.infers.2, fun d hd => h.announced d (List.mem_append_right _ hd)⟩

/-- The same statement has the same types, and afterwards the contexts have the same types again. -/
def Determined (S T : Store) (f g : FunctionId) (s : TypedStmt) : Prop :=
  ∀ Γ Δ r (s' : TypedStmt), SameTypes S T f g Γ Δ → s'.erase = s.erase →
    s.Established S f Γ r → s'.Established T g Δ r →
    s'.occurrences.map Occurrence.types = s.occurrences.map Occurrence.types ∧
      SameTypes S T f g (Γ.after s) (Δ.after s')

theorem occurrencesAll_eq (h : SameTypes S T f g Γ Δ) (ss : List TypedStmt) {ss' : List TypedStmt}
    (hss : ∀ s ∈ ss, s.Determined S T f g) (herase : eraseAll ss' = eraseAll ss)
    (hleft : AllEstablished S f Γ r ss) (hright : AllEstablished T g Δ r ss') :
    (occurrencesAll ss').map Occurrence.types = (occurrencesAll ss).map Occurrence.types := by
  induction ss generalizing ss' Γ Δ r with
  | nil =>
    cases ss' with
    | nil => rfl
    | cons s' ss' => cases herase
  | cons s ss ih =>
    cases ss' with
    | nil => cases herase
    | cons s' ss' =>
      rw [List.forall_mem_cons] at hss
      rw [eraseAll, eraseAll] at herase
      obtain ⟨hs, hrest⟩ := List.cons.inj herase
      obtain ⟨hfirst, hafter⟩ := hss.1 Γ Δ r s' h hs hleft.head hright.head
      have htail := hright.tail
      rw [firstReturn?_eq, Occurrence.firstReturned?_congr hfirst, ← firstReturn?_eq] at htail
      rw [occurrencesAll, List.map_append, hfirst, ih hafter hss.2 hrest hleft.tail htail,
        occurrencesAll, List.map_append]

/-- Two branches, where the second is behind what the first returns. -/
theorem branches_determined (h : SameTypes S T f g Γ Δ)
    {before after before' after' : List TypedStmt}
    (hbefore : ∀ s ∈ before, s.Determined S T f g) (hafter : ∀ s ∈ after, s.Determined S T f g)
    (herase : eraseAll before' = eraseAll before) (herase' : eraseAll after' = eraseAll after)
    (hleft : AllEstablished S f Γ r before)
    (hleft' : AllEstablished S f Γ (r.or (firstReturnOf? before)) after)
    (hright : AllEstablished T g Δ r before')
    (hright' : AllEstablished T g Δ (r.or (firstReturnOf? before')) after') :
    (occurrencesAll before').map Occurrence.types = (occurrencesAll before).map Occurrence.types ∧
      (occurrencesAll after').map Occurrence.types =
        (occurrencesAll after).map Occurrence.types := by
  have hfirst := occurrencesAll_eq h before hbefore herase hleft hright
  rw [firstReturnOf?_eq, Occurrence.firstReturned?_congr hfirst, ← firstReturnOf?_eq] at hright'
  exact ⟨hfirst, occurrencesAll_eq h after hafter herase' hleft' hright'⟩

theorem types_occurrences_declare (b : TypedBinding) :
    (declare b).occurrences.map Occurrence.types =
      (b.value.map TypedExpr.types).toList.map (Prod.mk false) := by
  rw [occurrences]
  cases b.value <;> rfl

/-- The variable of a declaration gets the same type. -/
theorem declare_determined (h : SameTypes S T f g Γ Δ) (b b' : TypedBinding)
    (herase : b'.erase = b.erase) (hb : (declare b).Established S f Γ r)
    (hb' : (declare b').Established T g Δ r) :
    (declare b').occurrences.map Occurrence.types = (declare b).occurrences.map Occurrence.types ∧
      SameTypes S T f g (Γ.after (declare b)) (Δ.after (declare b')) := by
  rw [TypedBinding.erase, TypedBinding.erase, Binding.mk.injEq] at herase
  obtain ⟨-, hname, hdeclared, hvalue⟩ := herase
  have hvalues : b'.value.map TypedExpr.types = b.value.map TypedExpr.types := by
    cases hv : b.value with
    | none =>
      rw [hv, Option.map_none, Option.map_eq_none_iff] at hvalue
      rw [hvalue, Option.map_none]
    | some v =>
      rw [hv] at hvalue
      obtain ⟨v', hv', he⟩ := Option.map_eq_some_iff.mp hvalue
      rw [hv', Option.map_some, Option.map_some, v.determined h v' he
        ⟨(hb.checked v hv).1, hb.infers v hv⟩ ⟨(hb'.checked v' hv').1, hb'.infers v' hv'⟩]
  have htypes : b'.value.map TypedExpr.type = b.value.map TypedExpr.type := by
    rw [TypedExpr.map_type, hvalues, ← TypedExpr.map_type]
  obtain ⟨named, hnamed, hslot⟩ := hb.announced b (List.mem_singleton_self b)
  obtain ⟨named', hnamed', hslot'⟩ := hb'.announced b' (List.mem_singleton_self b')
  rw [hdeclared, Store.namedType_congr h.catalog, hnamed] at hnamed'
  cases hnamed'
  refine ⟨by rw [types_occurrences_declare, hvalues, types_occurrences_declare], ?_⟩
  rw [Context.after, Context.after, hname]
  exact h.declare _ (Option.some.inj (by rw [hslot', htypes, hslot]))

theorem determined (s : TypedStmt) : s.Determined S T f g := by
  induction s with
  | expression p value =>
    intro Γ Δ r s' h herase hs hs'
    cases s' with
    | expression p' value' =>
      rw [erase, erase, Stmt.expression.injEq] at herase
      have hvalue := value.determined h value' herase.2 ⟨hs.checked, hs.infers⟩
        ⟨hs'.checked, hs'.infers⟩
      exact ⟨congrArg (fun ts => [(false, ts)]) hvalue, h⟩
    | _ => cases herase
  | declare b =>
    intro Γ Δ r s' h herase hs hs'
    cases s' with
    | declare b' => exact declare_determined h b b' (Stmt.declare.inj herase) hs hs'
    | _ => cases herase
  | assign p target value =>
    intro Γ Δ r s' h herase hs hs'
    cases s' with
    | assign p' target' value' =>
      rw [erase, erase, Stmt.assign.injEq] at herase
      obtain ⟨hchecked, hcheckedv, -⟩ := hs.checked
      obtain ⟨hchecked', hcheckedv', -⟩ := hs'.checked
      have htarget := target.determined h target' herase.2.1 ⟨hchecked, hs.infers.1⟩
        ⟨hchecked', hs'.infers.1⟩
      have hvalue := value.determined h value' herase.2.2 ⟨hcheckedv, hs.infers.2⟩
        ⟨hcheckedv', hs'.infers.2⟩
      refine ⟨?_, h⟩
      rw [occurrences, List.map_cons, List.map_cons, Occurrence.types_congr htarget,
        Occurrence.types_congr hvalue]
      rfl
    | _ => cases herase
  | conditional p condition thenBody elseBody hthen helse =>
    intro Γ Δ r s' h herase hs hs'
    cases s' with
    | conditional p' condition' thenBody' elseBody' =>
      rw [erase, erase, Stmt.conditional.injEq] at herase
      obtain ⟨-, hcondition, hthenBody, helseBody⟩ := herase
      obtain ⟨hc, -, ht, he⟩ := hs.checked
      obtain ⟨hc', -, ht', he'⟩ := hs'.checked
      obtain ⟨hcalls, hinfers, hinferse⟩ := hs.infers
      obtain ⟨hcalls', hinfers', hinferse'⟩ := hs'.infers
      obtain ⟨had, had'⟩ := List.forall_mem_append.mp hs.announced
      obtain ⟨hbd, hbd'⟩ := List.forall_mem_append.mp hs'.announced
      have hcondition := condition.determined h condition' hcondition ⟨hc, hcalls⟩ ⟨hc', hcalls'⟩
      obtain ⟨hthenBody, helseBody⟩ := branches_determined h hthen helse hthenBody helseBody
        ⟨ht, hinfers, had⟩ ⟨he, hinferse, had'⟩ ⟨ht', hinfers', hbd⟩ ⟨he', hinferse', hbd'⟩
      refine ⟨?_, h⟩
      rw [occurrences, List.map_cons, List.map_append, Occurrence.types_congr hcondition, hthenBody,
        helseBody, ← List.map_append, ← List.map_cons, occurrences]
    | _ => cases herase
  | forLoop p name iterable slot body ih =>
    intro Γ Δ r s' h herase hs hs'
    cases s' with
    | forLoop p' name' iterable' slot' body' =>
      rw [erase, erase, Stmt.forLoop.injEq] at herase
      obtain ⟨-, rfl, hiterable, hbody⟩ := herase
      obtain ⟨hi, -, htype, hb⟩ := hs.checked
      obtain ⟨hi', -, htype', hb'⟩ := hs'.checked
      have hiterable := iterable.determined h iterable' hiterable ⟨hi, hs.infers.1⟩
        ⟨hi', hs'.infers.1⟩
      have hbody := occurrencesAll_eq (h.declare name' (htype'.trans htype.symm)) body ih hbody
        ⟨hb, hs.infers.2, hs.announced⟩ ⟨hb', hs'.infers.2, hs'.announced⟩
      refine ⟨?_, h⟩
      rw [occurrences, List.map_cons, Occurrence.types_congr hiterable, hbody, ← List.map_cons,
        occurrences]
    | _ => cases herase
  | whileLoop p condition body ih =>
    intro Γ Δ r s' h herase hs hs'
    cases s' with
    | whileLoop p' condition' body' =>
      rw [erase, erase, Stmt.whileLoop.injEq] at herase
      obtain ⟨-, hcondition, hbody⟩ := herase
      obtain ⟨hc, -, hb⟩ := hs.checked
      obtain ⟨hc', -, hb'⟩ := hs'.checked
      have hcondition := condition.determined h condition' hcondition ⟨hc, hs.infers.1⟩
        ⟨hc', hs'.infers.1⟩
      have hbody := occurrencesAll_eq h body ih hbody ⟨hb, hs.infers.2, hs.announced⟩
        ⟨hb', hs'.infers.2, hs'.announced⟩
      refine ⟨?_, h⟩
      rw [occurrences, List.map_cons, Occurrence.types_congr hcondition, hbody, ← List.map_cons,
        occurrences]
    | _ => cases herase
  | ret p value =>
    intro Γ Δ r s' h herase hs hs'
    cases s' with
    | ret p' value' =>
      rw [erase, erase, Stmt.ret.injEq] at herase
      have hvalue := value.determined h value' herase.2 ⟨hs.checked.1, hs.infers⟩
        ⟨hs'.checked.1, hs'.infers⟩
      exact ⟨congrArg (fun ts => [(true, ts)]) hvalue, h⟩
    | _ => cases herase

end TypedStmt

end

end BlockScript
