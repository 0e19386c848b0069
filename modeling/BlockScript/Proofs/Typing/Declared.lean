import BlockScript.Proofs.Typing.Inference

/-!
# The types of variables

A variable has the type that its declaration names, or else that of its initial value. The function
of a method is new, and takes what the parameters of the method name.
-/

namespace BlockScript

namespace TypedStmt

mutual

/-- The declarations in a statement, in the order of the text. -/
def declarations : TypedStmt → List TypedBinding
  | .declare b => [b]
  | .conditional _ _ thenBody elseBody => declarationsAll thenBody ++ declarationsAll elseBody
  | .forLoop _ _ _ _ body | .whileLoop _ _ body => declarationsAll body
  | .expression .. | .assign .. | .ret .. => []

def declarationsAll : List TypedStmt → List TypedBinding
  | [] => []
  | s :: rest => s.declarations ++ declarationsAll rest

end

end TypedStmt

/-- The variable has the type that its declaration names, or that of its value. -/
def TypedBinding.Announced (S : Store) (b : TypedBinding) : Prop :=
  ∃ named, S.namedType b.declared = .ok named ∧
    some (S.slot b.slot).type = named.or (b.value.map TypedExpr.type)

namespace Check

open Attempt Pass TypedStmt

variable {a b : Analysis}

/-- The variables declared are as announced in all stores that refine the one that is left. -/
def Announces (declarations : List TypedBinding) (s : Store) : Prop :=
  ∀ S, s.Refines S → ∀ d ∈ declarations, d.Announced S

theorem Announces.refines {ds : List TypedBinding} {s t : Store} (h : Announces ds s)
    (hst : s.Refines t) : Announces ds t :=
  fun S hS => h S (hst.trans hS)

theorem announces_nil (s : Store) : Announces [] s := fun _ _ => nofun

theorem announces_append {ds es : List TypedBinding} {s : Store} (hds : Announces ds s)
    (hes : Announces es s) : Announces (ds ++ es) s :=
  fun S hS => List.forall_mem_append.mpr ⟨hds S hS, hes S hS⟩

theorem gives_binding_announces (d : Binding) :
    Gives (binding d) a fun typed b => Announces [typed] b.store := by
  have hnamed : Finds (ask fun s _ => s.namedType d.type) a fun named =>
      a.store.namedType d.type = .ok named :=
    finds_ask fun _ h => h
  refine hnamed.bind fun named hnamed => ?_
  -- A variable that is declared with the type keeps it.
  have hdefine (value : Option TypedExpr) (type : Ty)
      (htype : some type = named.or (value.map TypedExpr.type)) :
      Gives (do return ⟨d.position, d.name, d.type, value, ← define d.name type none⟩ :
        Check TypedBinding) a fun typed b => Announces [typed] b.store := by
    refine Gives.bind (Q := fun v b => ∀ S, b.store.Refines S → (S.slot v).type = type ∧
      S.catalog = a.store.catalog) ?_ fun v b hv => gives_pure fun S hS => ?_
    · exact fun S hS => ⟨type_defineSlot hS, hS.catalog⟩
    · obtain ⟨hslot, hcatalog⟩ := hv S hS
      refine List.forall_mem_singleton.mpr ⟨named, ?_, ?_⟩
      · rw [← hnamed]
        exact Store.namedType_congr hcatalog d.type
      · rw [← htype, hslot]
  split
  · rename_i named _ _ value _
    refine (inert_expr value).finds.bind fun typed _ => ?_
    refine (inert_ofExcept _).finds.bind fun _ _ => hdefine (some typed) _ ?_
    cases named <;> rfl
  · exact hdefine none _ rfl
  · exact gives_fail _

/-- What is announced in a statement, wherever it stands. -/
def AnnouncesAt (s : Stmt) : Prop :=
  ∀ a : Analysis, a.Sound → Gives (stmt s) a fun typed b => Announces typed.declarations b.store

theorem gives_stmts_announce {ss : List Stmt} (h : ∀ s ∈ ss, AnnouncesAt s) (ha : a.Sound) :
    Gives (stmts ss) a fun typed b => Announces (declarationsAll typed) b.store := by
  induction ss generalizing a with
  | nil => exact gives_pure (announces_nil _)
  | cons s ss ih =>
    rw [List.forall_mem_cons] at h
    refine ((h.1 a ha).and_keeps (upholds_careful.keeps_stmt s)).bind ?_
    rintro typed b ⟨hs, hab⟩
    have hb := (hab ha).sound
    refine ((ih h.2 hb).and_keeps (upholds_careful.keeps_block ss)).bind ?_
    rintro rest c ⟨hss, hbc⟩
    exact gives_pure (announces_append (hs.refines (hbc hb).grows.toRefines) hss)

theorem gives_block_announces {ss : List Stmt} (h : ∀ s ∈ ss, AnnouncesAt s) (ha : a.Sound) :
    Gives (inScope (stmts ss)) a fun typed b =>
      Minds false a b ∧ Announces (declarationsAll typed) b.store :=
  gives_inScope_minds (Q := fun typed t => Announces (declarationsAll typed) t) ha
    (upholds_careful.keeps_block ss) (gives_stmts_announce h (ha.enterFrame ha.scope))

theorem gives_stmt_announces (s : Stmt) : AnnouncesAt s := by
  induction s with
  | expression p value =>
    intro a _
    exact Gives.locate ((inert_expr value).finds.bind fun _ _ => gives_pure (announces_nil _))
  | declare d =>
    exact fun a _ => ((gives_binding_announces d).bind fun typed b hb => gives_pure hb).locate
  | assign p target value =>
    intro a _
    refine Gives.locate ?_
    unfold assignment
    split
    · refine (inert_expr target).finds.bind fun _ _ => (inert_expr value).finds.bind fun _ _ => ?_
      exact (inert_ofExcept _).finds.bind fun _ _ => gives_pure (announces_nil _)
    · exact gives_fail _
  | conditional p e thenBody elseBody hthen helse =>
    intro a ha
    refine Gives.locate ((inert_condition e).finds.bind fun typed _ => ?_)
    refine (inert_requireBody .IF thenBody).finds.bind fun _ _ => ?_
    refine (gives_block_announces hthen ha).bind ?_
    rintro thenBody b ⟨hab, hthenBody⟩
    refine (gives_block_announces helse hab.sound).bind ?_
    rintro elseBody c ⟨hbc, helseBody⟩
    exact gives_pure (announces_append (hthenBody.refines hbc.grows.toRefines) helseBody)
  | forLoop p name iterable body ih =>
    intro a ha
    refine Gives.locate ((inert_expr iterable).finds.bind fun iterable _ => ?_)
    refine (inert_ofExcept _).finds.bind fun _ _ => ?_
    refine (inert_requireBody .FOR body).finds.bind fun _ _ => ?_
    have henter := ha.enterFrame ha.scope
    refine Gives.bind (gives_inScope_minds (Q := fun r t => Announces (declarationsAll r.2) t) ha
      (upholds_careful.keeps_round name body) ?_) ?_
    · refine (gives_define henter name .integer).bind ?_
      rintro slot b ⟨-, hb, -⟩
      exact (gives_stmts_announce ih hb.sound).bind fun typed c hc => gives_pure hc
    · rintro ⟨slot, typed⟩ b ⟨-, hbody⟩
      exact gives_pure hbody
  | whileLoop p e body ih =>
    intro a ha
    refine Gives.locate ((inert_condition e).finds.bind fun typed _ => ?_)
    exact (gives_block_announces ih ha).bind fun body b hb => gives_pure hb.2
  | ret p value =>
    intro a _
    refine Gives.locate (finds_get.bind fun b hb => ?_)
    subst hb
    split
    · exact gives_fail _
    · refine (inert_expr value).finds.bind fun value _ => finds_get.bind fun b hb => ?_
      split
      · exact (gives_const trivial).bind fun _ _ _ => gives_pure (announces_nil _)
      · exact (inert_ofExcept _).finds.bind fun _ _ => gives_pure (announces_nil _)
  | unknown p label => exact fun a _ => gives_throw _

/-! ## Methods -/

theorem gives_body_announces (m : Method) (types : List Ty) (ha : a.Sound) :
    Gives (inScope do
        let slots ← defineParams m.params types
        return (slots, ← stmts m.body)) a
      fun r b => Minds false a b ∧ Announces (declarationsAll r.2) b.store := by
  refine gives_inScope_minds (Q := fun (r : List SlotId × List TypedStmt) t =>
    Announces (declarationsAll r.2) t) ha (upholds_careful.keeps_body m types) ?_
  have henter := ha.enterFrame ha.scope
  have hparams := upholds_careful.keeps_defineParams m.params types
  refine (Gives.and_keeps (gives_const trivial) hparams).bind ?_
  rintro slots b ⟨-, hb⟩
  refine (gives_stmts_announce (fun s _ => gives_stmt_announces s) (hb henter).sound).bind ?_
  exact fun typed c hc => gives_pure hc

/-- A method that is checked after `a`: its function is none of those that there were and takes what
the parameters name, and its variables are as announced. -/
structure Introduces (a : Analysis) (S : Store) (typed : TypedMethod) : Prop where
  new : a.store.functions.size ≤ typed.function.index
  params : S.paramTypes typed.params = .ok (S.function typed.function).params
  declarations : ∀ d ∈ declarationsAll typed.body, d.Announced S

theorem Introduces.of_le {S : Store} {typed : TypedMethod} (h : Introduces b S typed)
    (hab : a.store.functions.size ≤ b.store.functions.size) : Introduces a S typed :=
  { h with new := Nat.le_trans hab h.new }

theorem gives_method_introduces (ha : a.Sound) (m : Method) :
    Gives (method m) a fun typed b => ∀ S, b.store.Refines S → Introduces a S typed := by
  have htypes : Finds (locate m.position (ask fun s _ => do
      return (← s.paramTypes m.params, ← s.namedType m.returnType))) a fun r =>
      a.store.paramTypes m.params = .ok r.1 := by
    refine Finds.locate (finds_ask fun r hr => ?_)
    obtain ⟨types, htypes, hrest⟩ := Store.bind_eq_ok.mp hr
    obtain ⟨returns, -, hpure⟩ := Store.bind_eq_ok.mp hrest
    cases hpure
    exact htypes
  refine htypes.bind ?_
  rintro ⟨types, returns⟩ htypes
  dsimp only at htypes
  let f : FunctionId := ⟨a.store.functions.size⟩
  let b := begun a m types returns
  have hab : a.Extends b := extends_begun ha m types returns
  have hnew : b.store.function f = ⟨m.name, types, returns, .absent⟩ :=
    (Store.function_defineFunction a.store a.scope _ f).trans (if_pos rfl)
  have hsize : f.index < b.store.functions.size := by
    simp [b, f, begun, Store.defineFunction, Store.createFunction, Store.bindFunction]
  have hsound : Sound { b with own := some f } := ⟨hab.sound.store, hab.sound.scope⟩
  change Gives (checkBody m types f b.own) { b with own := some f } _
  have hbody : Gives _ { b with own := some f } fun (r : List SlotId × List TypedStmt) c =>
      Evolves false { b with own := some f } c ∧
        (b.store.Refines c.store ∧ Announces (declarationsAll r.2) c.store) :=
    (gives_body_announces m types hsound).imp fun r c hc =>
      ⟨hc.1.toEvolves, hc.1.grows.toRefines, hc.2⟩
  refine (gives_ensuring_own (Q := fun (r : List SlotId × List TypedStmt) t =>
    b.store.Refines t ∧ Announces (declarationsAll r.2) t) hbody).bind ?_
  rintro ⟨slots, typed⟩ c ⟨hbc, hrefines, hannounces⟩
  refine (gives_close_returns (f := f) hbc.sound
    (Nat.lt_of_lt_of_le hsize hrefines.functions)).imp ?_
  rintro _ d ⟨rfl, hcd, -⟩ S hS
  have hcS := hcd.refines.trans hS
  have hbS := hrefines.trans hcS
  refine ⟨Nat.le_refl _, ?_, hannounces S hcS⟩
  rw [(hbS.function f hsize).params, hnew, ← htypes]
  exact Store.paramTypes_congr (hab.grows.toRefines.trans hbS).catalog m.params

/-! ## Programs -/

theorem gives_methods_introduce {ms : List Method} (ha : a.Sound) (hown : a.own = none) :
    Gives (ms.mapM method) a fun typed b => ∀ S, b.store.Refines S →
      ∀ m ∈ typed, Introduces a S m := by
  induction ms generalizing a with
  | nil =>
    rw [List.mapM_nil]
    exact gives_pure fun _ _ => nofun
  | cons m ms ih =>
    rw [List.mapM_cons]
    refine ((gives_method_introduces ha m).and_keeps (guarded_method m)).bind ?_
    rintro typed b ⟨hm, hab⟩
    have hab := hab ha hown
    have hb := hab.own.trans hown
    refine ((ih hab.sound hb).and_keeps (keeps_mapM fun m _ => guarded_method m)).bind ?_
    rintro rest c ⟨hrest, hbc⟩
    refine gives_pure fun S hS => List.forall_mem_cons.mpr ⟨?_, fun d hd => ?_⟩
    · exact hm S ((hbc hab.sound hb).grows.toRefines.trans hS)
    · exact (hrest S hS d hd).of_le hab.grows.functions

end Check

end BlockScript
