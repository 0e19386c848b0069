import BlockScript.Proofs.Typing.Checking

/-!
# The analysis is right about statements and programs

Statements are checked in the context that the declarations before them in the same block leave, and
a block leaves none. Variables get their numbers in the order of the text.
-/

namespace BlockScript.Check

open Attempt Pass

variable {α : Type} {a b c : Analysis} {f : FunctionId}

/-- The analysis is in the body of the method `f`. -/
structure Inside (f : FunctionId) (a : Analysis) : Prop where
  sound : a.Sound
  own : a.own = some f
  function : f.index < a.store.functions.size

theorem Inside.evolves {declares : Bool} (h : Inside f a) (hab : a.Evolves declares b) :
    Inside f b :=
  ⟨hab.sound, hab.own.trans h.own, Nat.lt_of_lt_of_le h.function hab.grows.functions⟩

theorem Inside.enterFrame (h : Inside f a) : Inside f (a.enterFrame a.scope) :=
  ⟨h.sound.enterFrame h.sound.scope, h.own, h.function⟩

/-! ## Statements -/

/-- What checking a statement does and gives. -/
structure Settles (f : FunctionId) (a : Analysis) (s : Stmt) (typed : TypedStmt) (b : Analysis) :
    Prop where
  erase : typed.erase = s
  evolves : a.Evolves true b
  context : b.context = a.context.after typed
  slots : typed.slots = SlotId.between a.store.slots.size b.store.slots.size
  checked : ∀ S, b.store.Refines S → typed.Checked S f a.context

/-- As `Settles`, for statements in order. -/
structure SettlesAll (f : FunctionId) (a : Analysis) (ss : List Stmt) (typed : List TypedStmt)
    (b : Analysis) : Prop where
  erase : TypedStmt.eraseAll typed = ss
  evolves : a.Evolves true b
  slots : TypedStmt.slotsAll typed = SlotId.between a.store.slots.size b.store.slots.size
  checked : ∀ S, b.store.Refines S → TypedStmt.AllChecked S f a.context typed

theorem gives_stmts {ss : List Stmt}
    (h : ∀ s ∈ ss, ∀ a, Inside f a → Gives (stmt s) a (Settles f a s)) (ha : Inside f a) :
    Gives (stmts ss) a (SettlesAll f a ss) := by
  induction ss generalizing a with
  | nil => exact gives_pure ⟨rfl, .refl ha.sound, (SlotId.between_self _).symm, fun _ _ => trivial⟩
  | cons s ss ih =>
    rw [List.forall_mem_cons] at h
    refine (h.1 a ha).bind fun typed b hs => ?_
    refine (ih h.2 (ha.evolves hs.evolves)).bind fun rest c hss => gives_pure ?_
    refine ⟨?_, hs.evolves.trans hss.evolves, ?_, fun S hS => ?_⟩
    · rw [TypedStmt.eraseAll, hs.erase, hss.erase]
    · rw [TypedStmt.slotsAll, hs.slots, hss.slots,
        SlotId.between_append hs.evolves.grows.slots hss.evolves.grows.slots]
    · have hrest := hss.checked S hS
      rw [hs.context] at hrest
      exact ⟨hs.checked S (hss.evolves.grows.toRefines.trans hS), hrest⟩

/-- A block: what its statements declare is gone after it. -/
theorem gives_block {ss : List Stmt}
    (h : ∀ s ∈ ss, ∀ a, Inside f a → Gives (stmt s) a (Settles f a s)) (ha : Inside f a) :
    Gives (inScope (stmts ss)) a fun typed b => a.Evolves false b ∧ TypedStmt.eraseAll typed = ss ∧
      TypedStmt.slotsAll typed = SlotId.between a.store.slots.size b.store.slots.size ∧
      ∀ S, b.store.Refines S → TypedStmt.AllChecked S f a.context typed := by
  refine gives_inScope (Q := fun typed s => TypedStmt.eraseAll typed = ss ∧
    TypedStmt.slotsAll typed = SlotId.between a.store.slots.size s.slots.size ∧
    ∀ S, s.Refines S → TypedStmt.AllChecked S f a.context typed) ha.sound ?_
  refine (gives_stmts h ha.enterFrame).imp fun typed b hb => ?_
  have hchecked := hb.checked
  rw [context_enterFrame ha.sound ha.sound.scope] at hchecked
  exact ⟨hb.evolves, hb.erase, hb.slots, hchecked⟩

/-- A new variable, and the context with it. -/
theorem gives_define (ha : a.Sound) (name : String) (type : Ty) :
    Gives (define name type none) a fun v b => v = ⟨a.store.slots.size⟩ ∧ a.Evolves true b ∧
      b.store.slots.size = a.store.slots.size + 1 ∧ b.context = a.context.declare name v ∧
      ∀ S, b.store.Refines S → (S.slot v).type = type :=
  ⟨rfl, .define ha _, slots_size_defineSlot .., context_define ha _, fun _ hS => type_defineSlot hS⟩

/-- A statement that declares nothing in its own scope. -/
theorem Settles.of_false {s : Stmt} {typed : TypedStmt} (ha : a.Sound) (hab : a.Evolves false b)
    (hafter : ∀ Γ : Context, Γ.after typed = Γ) (herase : typed.erase = s)
    (hslots : typed.slots = SlotId.between a.store.slots.size b.store.slots.size)
    (hchecked : ∀ S, b.store.Refines S → typed.Checked S f a.context) :
    Settles f a s typed b :=
  ⟨herase, hab.of_false true, (hab.context ha).trans (hafter _).symm, hslots, hchecked⟩

theorem finds_condition (h : a.Sound) (e : Expr) :
    Finds (condition e) a fun typed => Explains a e typed ∧ typed.type = .boolean := by
  refine (finds_expr h e).bind fun typed he => ?_
  split
  · rename_i htype
    exact finds_pure ⟨he, htype⟩
  · exact gives_fail _

theorem finds_requireBody (opener : Keyword) (body : List Stmt) :
    Finds (requireBody opener body) a fun _ => True := by
  unfold requireBody
  split
  · exact gives_fail _
  · exact finds_pure trivial

theorem gives_assignment (ha : a.Sound) (p : Position) (target value : Expr) :
    Gives (assignment p target value) a (Settles f a (.assign p target value)) := by
  unfold assignment
  split
  · refine (finds_expr ha target).bind fun target htarget => ?_
    refine (finds_expr ha value).bind fun value hvalue => ?_
    have hfits : Finds (ofExcept (target.type.requireAssignable value.type)) a fun _ =>
        target.type.accepts value.type = true :=
      finds_ofExcept fun _ hok => requireAssignable_eq_ok hok
    refine hfits.bind fun _ haccepts => gives_pure ?_
    refine .of_false ha (.refl ha) (fun _ => rfl) ?_ (SlotId.between_self _).symm fun S hS => ?_
    · rw [TypedStmt.erase, htarget.erase, hvalue.erase]
    · exact ⟨htarget.checked S hS, hvalue.checked S hS, haccepts⟩
  · exact gives_fail _

/-- A return type that was open becomes that of the first value returned. -/
theorem Evolves.setReturns (ha : a.Sound) (hf : (a.store.function f).returns = none) (type : Ty) :
    a.Evolves false { a with store := a.store.setReturns f type } :=
  .of_grows ha (ha.store.setReturns f type) (Store.grows_setReturns a.store f type hf)

theorem gives_returned (ha : Inside f a) (p : Position) (value : Expr) :
    Gives (returned p value) a (Settles f a (.ret p value)) := by
  refine finds_get.bind fun b hb => ?_
  subst hb
  rw [ha.own]
  refine (finds_expr ha.sound value).bind fun value hvalue => ?_
  refine finds_get.bind fun b hb => ?_
  subst hb
  cases hr : (a.store.function f).returns with
  | none =>
    have hset := Evolves.setReturns ha.sound hr value.type
    refine Gives.bind (Q := fun _ b => b = { a with store := a.store.setReturns f value.type })
      (gives_modify rfl) fun _ b hb => gives_pure ?_
    subst hb
    refine .of_false ha.sound hset (fun _ => rfl) ?_ (SlotId.between_self _).symm fun S hS => ?_
    · rw [TypedStmt.erase, hvalue.erase]
    · refine ⟨hvalue.checked S (hset.grows.toRefines.trans hS), value.type, ?_, Ty.accepts_self _⟩
      have hfn := Store.function_setReturns a.store f value.type f
      rw [if_pos ⟨rfl, ha.function⟩] at hfn
      have hS' := (hS.function f (Nat.lt_of_lt_of_le ha.function hset.grows.functions)).returns
      rw [hfn] at hS'
      exact hS'.resolve_left nofun
  | some type =>
    have hfits : Finds (ofExcept (type.requireAssignable value.type)) a fun _ =>
        type.accepts value.type = true :=
      finds_ofExcept fun _ hok => requireAssignable_eq_ok hok
    refine hfits.bind fun _ haccepts => gives_pure ?_
    refine .of_false ha.sound (.refl ha.sound) (fun _ => rfl) ?_ (SlotId.between_self _).symm
      fun S hS => ?_
    · rw [TypedStmt.erase, hvalue.erase]
    · refine ⟨hvalue.checked S hS, type, ?_, haccepts⟩
      have hS' := (hS.function f ha.function).returns
      rw [hr] at hS'
      exact hS'.resolve_left nofun

theorem gives_stmt (s : Stmt) (ha : Inside f a) : Gives (stmt s) a (Settles f a s) := by
  induction s generalizing a with
  | expression p value =>
    refine Gives.locate ((finds_expr ha.sound value).bind fun value hvalue => gives_pure ?_)
    refine .of_false ha.sound (.refl ha.sound) (fun _ => rfl) ?_ (SlotId.between_self _).symm
      hvalue.checked
    rw [TypedStmt.erase, hvalue.erase]
  | declare d =>
    refine Gives.locate ((gives_binding ha.sound d).bind fun typed b hd => gives_pure ?_)
    refine ⟨by rw [TypedStmt.erase, hd.erase], hd.evolves ha.sound, hd.context ha.sound, ?_,
      hd.checked⟩
    rw [TypedStmt.slots, hd.slot, hd.slots_size, SlotId.between_succ]
  | assign p target value => exact (gives_assignment ha.sound p target value).locate
  | conditional p condition thenBody elseBody hthen helse =>
    refine Gives.locate ((finds_condition ha.sound condition).bind fun typed htyped => ?_)
    refine (finds_requireBody .IF thenBody).bind fun _ _ => ?_
    refine (gives_block (fun s hs a => hthen s hs) ha).bind ?_
    rintro thenBody b ⟨hab, herase, hslots, hchecked⟩
    refine (gives_block (fun s hs a => helse s hs) (ha.evolves hab)).bind ?_
    rintro elseBody c ⟨hbc, herase', hslots', hchecked'⟩
    refine gives_pure (.of_false ha.sound (hab.trans hbc) (fun _ => rfl) ?_ ?_ fun S hS => ?_)
    · rw [TypedStmt.erase, htyped.1.erase, herase, herase']
    · rw [TypedStmt.slots, hslots, hslots',
        SlotId.between_append hab.grows.slots hbc.grows.slots]
    · have hS' := hbc.grows.toRefines.trans hS
      have helse := hchecked' S hS
      rw [hab.context ha.sound] at helse
      exact ⟨htyped.1.checked S (hab.grows.toRefines.trans hS'), htyped.2, hchecked S hS', helse⟩
  | forLoop p name iterable body ih =>
    refine Gives.locate ((finds_expr ha.sound iterable).bind fun iterable hiterable => ?_)
    have hfits : Finds (ofExcept (Ty.iterable.requireAssignable iterable.type)) a fun _ =>
        Ty.iterable.accepts iterable.type = true :=
      finds_ofExcept fun _ hok => requireAssignable_eq_ok hok
    refine hfits.bind fun _ haccepts => (finds_requireBody .FOR body).bind fun _ _ => ?_
    refine (gives_inScope (Q := fun r s => TypedStmt.eraseAll r.2 = body ∧
      r.1 :: TypedStmt.slotsAll r.2 = SlotId.between a.store.slots.size s.slots.size ∧
      ∀ S, s.Refines S → (S.slot r.1).type = .integer ∧
        TypedStmt.AllChecked S f (a.context.declare name r.1) r.2) ha.sound ?_).bind ?_
    · refine (gives_define ha.enterFrame.sound name .integer).bind ?_
      rintro slot b ⟨hslot, hb, hsize, hcontext, htype⟩
      refine (gives_stmts (fun s hs a => ih s hs) (ha.enterFrame.evolves hb)).bind
        fun typed c hc => ?_
      refine gives_pure ⟨hb.trans hc.evolves, hc.erase, ?_, fun S hS => ?_⟩
      · have hgrows := hc.evolves.grows.slots
        rw [hsize] at hgrows
        rw [hc.slots, hslot, ← List.singleton_append, ← SlotId.between_succ, hsize]
        exact SlotId.between_append (Nat.le_succ _) hgrows
      · have hchecked := hc.checked S hS
        rw [hcontext, context_enterFrame ha.sound ha.sound.scope] at hchecked
        exact ⟨htype S (hc.evolves.grows.toRefines.trans hS), hchecked⟩
    · rintro ⟨slot, typed⟩ b ⟨hab, herase, hslots, hchecked⟩
      refine gives_pure (.of_false ha.sound hab (fun _ => rfl) ?_ hslots fun S hS => ?_)
      · rw [TypedStmt.erase, hiterable.erase, herase]
      · obtain ⟨htype, hbody⟩ := hchecked S hS
        exact ⟨hiterable.checked S (hab.grows.toRefines.trans hS), haccepts, htype, hbody⟩
  | whileLoop p condition body ih =>
    refine Gives.locate ((finds_condition ha.sound condition).bind fun typed htyped => ?_)
    refine (gives_block (fun s hs a => ih s hs) ha).bind ?_
    rintro body b ⟨hab, herase, hslots, hchecked⟩
    refine gives_pure (.of_false ha.sound hab (fun _ => rfl) ?_ hslots fun S hS => ?_)
    · rw [TypedStmt.erase, htyped.1.erase, herase]
    · exact ⟨htyped.1.checked S (hab.grows.toRefines.trans hS), htyped.2, hchecked S hS⟩
  | ret p value => exact (gives_returned ha p value).locate
  | unknown p label => exact gives_throw _

/-! ## Fields -/

theorem gives_fields {ds : List Binding} (ha : a.Sound) :
    Gives (ds.mapM field) a fun typed b => typed.map TypedBinding.erase = ds ∧ a.Evolves true b ∧
      b.context = a.context.declareFields typed ∧
      typed.map TypedBinding.slot = SlotId.between a.store.slots.size b.store.slots.size ∧
      ∀ S, b.store.Refines S → TypedProgram.FieldsChecked S a.context typed := by
  induction ds generalizing a with
  | nil =>
    rw [List.mapM_nil]
    exact gives_pure ⟨rfl, .refl ha, rfl, (SlotId.between_self _).symm, fun _ _ => trivial⟩
  | cons d ds ih =>
    rw [List.mapM_cons]
    refine (gives_binding ha d).locate.bind fun typed b hd => ?_
    have hb := hd.evolves ha
    refine (ih hb.sound).bind ?_
    rintro rest c ⟨herase, hc, hcontext, hslots, hchecked⟩
    rw [hd.context ha] at hcontext hchecked
    refine gives_pure ⟨?_, hb.trans hc, hcontext, ?_, fun S hS => ⟨?_, hchecked S hS⟩⟩
    · rw [List.map_cons, hd.erase, herase]
    · rw [List.map_cons, hslots, hd.slot, ← List.singleton_append, ← SlotId.between_succ,
        hd.slots_size]
      exact SlotId.between_append (Nat.le_succ _) (hd.slots_size ▸ hc.grows.slots)
    · exact hd.checked S (hc.grows.toRefines.trans hS)

/-! ## Methods -/

theorem gives_defineParams {ps : List Param} {types : List Ty} (hlength : types.length = ps.length)
    (ha : a.Sound) :
    Gives (defineParams ps types) a fun slots b => slots.length = ps.length ∧ a.Evolves true b ∧
      b.context = a.context.declareAll ps slots ∧
      slots = SlotId.between a.store.slots.size b.store.slots.size ∧
      ∀ S, b.store.Refines S → types = slots.map fun v => (S.slot v).type := by
  induction ps generalizing types a with
  | nil =>
    rw [List.length_nil, List.length_eq_zero_iff] at hlength
    subst hlength
    exact gives_pure ⟨rfl, .refl ha, rfl, (SlotId.between_self _).symm, fun _ _ => rfl⟩
  | cons p ps ih =>
    cases types with
    | nil => cases hlength
    | cons type types =>
      refine (gives_define ha p.name type).bind ?_
      rintro slot b ⟨hslot, hb, hsize, hcontext, htype⟩
      refine (ih (Nat.succ.inj hlength) hb.sound).bind ?_
      rintro slots c ⟨hcount, hc, hcontext', hslots, htypes⟩
      refine gives_pure ⟨?_, hb.trans hc, ?_, ?_, fun S hS => ?_⟩
      · rw [List.length_cons, List.length_cons, hcount]
      · rw [hcontext', hcontext, Context.declareAll]
      · rw [hslots, hslot, ← List.singleton_append, ← SlotId.between_succ, hsize]
        exact SlotId.between_append (Nat.le_succ _) (hsize ▸ hc.grows.slots)
      · rw [List.map_cons, ← htypes S hS, htype S (hc.grows.toRefines.trans hS)]

/-- What checking the parameters and the body of a method gives. -/
structure SettlesBody (f : FunctionId) (a : Analysis) (m : Method) (types : List Ty)
    (r : List SlotId × List TypedStmt) (s : Store) : Prop where
  erase : TypedStmt.eraseAll r.2 = m.body
  length : r.1.length = m.params.length
  slots : r.1 ++ TypedStmt.slotsAll r.2 = SlotId.between a.store.slots.size s.slots.size
  types : ∀ S, s.Refines S → types = r.1.map fun v => (S.slot v).type
  checked : ∀ S, s.Refines S → TypedStmt.AllChecked S f (a.context.declareAll m.params r.1) r.2

/-- The parameters and the body of a method, in a scope of their own. -/
theorem gives_body {m : Method} {types : List Ty} (hlength : types.length = m.params.length)
    (ha : Inside f a) :
    Gives (inScope do
        let slots ← defineParams m.params types
        return (slots, ← stmts m.body)) a
      fun r b => a.Evolves false b ∧ SettlesBody f a m types r b.store := by
  refine gives_inScope ha.sound ?_
  refine (gives_defineParams hlength ha.enterFrame.sound).bind ?_
  rintro slots b ⟨hcount, hb, hcontext, hslots, htypes⟩
  refine (gives_stmts (fun s _ a => gives_stmt s) (ha.enterFrame.evolves hb)).bind
    fun typed c hc => ?_
  refine gives_pure ⟨hb.trans hc.evolves, hc.erase, hcount, ?_, fun S hS => ?_, fun S hS => ?_⟩
  · dsimp only
    rw [hslots, hc.slots]
    exact SlotId.between_append hb.grows.slots hc.evolves.grows.slots
  · exact htypes S (hc.evolves.grows.toRefines.trans hS)
  · have hchecked := hc.checked S hS
    rw [hcontext, context_enterFrame ha.sound ha.sound.scope] at hchecked
    exact hchecked

/-- A method that has returned no value returns nil. -/
theorem gives_close (ha : a.Sound) (hf : f.index < a.store.functions.size) {x : Check α}
    {Q : α → Analysis → Prop}
    (hx : ∀ b, a.Evolves false b → b.store.slots = a.store.slots →
      (∃ t, (b.store.function f).returns = some t) → Gives x b Q) :
    Gives (do
        if ((← get).store.function f).returns.isNone then
          modify fun a => { a with store := a.store.setReturns f .nil }
        x) a Q := by
  refine finds_get.bind fun b hb => ?_
  subst hb
  split
  · rename_i hnone
    rw [Option.isNone_iff_eq_none] at hnone
    refine Gives.bind (Q := fun _ b => b = { a with store := a.store.setReturns f .nil })
      (gives_modify rfl) fun _ b hb => ?_
    subst hb
    refine hx _ (Evolves.setReturns ha hnone .nil) rfl ⟨.nil, ?_⟩
    dsimp only
    rw [Store.function_setReturns, if_pos ⟨rfl, hf⟩]
  · rename_i hsome
    refine hx a (.refl ha) rfl ?_
    rwa [Option.isNone_iff_eq_none, ← ne_eq, Option.ne_none_iff_exists'] at hsome

/-- What checking a method does and gives. -/
structure SettlesMethod (a : Analysis) (m : Method) (typed : TypedMethod) (b : Analysis) :
    Prop where
  erase : typed.erase = m
  extension : a.Extends b
  context : b.context = a.context.bind typed
  slots : typed.allSlots = SlotId.between a.store.slots.size b.store.slots.size
  checked : ∀ S, b.store.Refines S → typed.Checked S (a.context.bind typed)

theorem gives_method (ha : a.Sound) (m : Method) : Gives (method m) a (SettlesMethod a m) := by
  have htypes : Finds (locate m.position (ask fun s _ => do
      return (← s.paramTypes m.params, ← s.namedType m.returnType))) a fun r =>
      r.1.length = m.params.length := by
    exact Finds.locate (finds_ask fun r hr => Store.signature_length hr)
  refine htypes.bind ?_
  rintro ⟨types, returns⟩ hlength
  dsimp only at hlength
  let fn : Function := ⟨m.name, types, returns, .absent⟩
  let b : Analysis := { a with store := (a.store.defineFunction a.scope fn).2 }
  have hclosure : ∀ m c, fn.body = .method m c → a.store.Has c := by simp [fn]
  have hab : a.Extends b := .defineFunction ha hclosure
  have hcontext : b.context = a.context.define m.name types.length ⟨a.store.functions.size⟩ :=
    context_defineFunction ha hclosure
  refine Gives.bind (Q := fun f c => f = ⟨a.store.functions.size⟩ ∧ c = b) ⟨rfl, rfl⟩ ?_
  rintro f _ ⟨hf, rfl⟩
  have hnew : b.store.function f = fn := by
    rw [hf]
    exact (Store.function_defineFunction a.store a.scope fn _).trans (if_pos rfl)
  have hsize : f.index < b.store.functions.size := by
    rw [hf]
    simp [b, Store.defineFunction, Store.createFunction, Store.bindFunction]
  let c : Analysis := { b with log := .checkingMethod m.name types.length :: b.log }
  have hbc : b.Evolves false c := .note hab.sound _
  refine Gives.bind (Q := fun _ d => d = c) (gives_modify rfl) ?_
  rintro _ _ rfl
  have hinside : Inside f { c with own := some f } :=
    ⟨⟨hab.sound.store, hab.sound.scope⟩, rfl, hsize⟩
  refine Gives.bind (Q := fun o d => o = c ∧ d = c) ⟨rfl, rfl⟩ ?_
  rintro o _ ⟨rfl, rfl⟩
  refine Gives.bind (Q := fun _ d => d = { c with own := some f }) (gives_modify rfl) ?_
  rintro _ _ rfl
  refine (gives_ensuring_own (gives_body (m := m) hlength hinside)).bind ?_
  rintro ⟨slots, typed⟩ d ⟨hcd, hbody⟩
  have hbd := hbc.trans hcd
  refine gives_close hbd.sound (Nat.lt_of_lt_of_le hsize hbd.grows.functions) ?_
  rintro e hde hslots ⟨t, ht⟩
  have hbe := hbd.trans hde
  have hcontext' : b.context = a.context.bind
      ⟨m.position, m.name, m.params, m.returnType, f, slots, typed⟩ := by
    rw [hcontext, Context.bind, hlength, hf]
  refine gives_pure ⟨?_, hab.trans hbe.extends, ?_, ?_, fun S hS => ⟨?_, hbody.length, ?_, ?_⟩⟩
  · rw [TypedMethod.erase, hbody.erase]
  · rw [hbe.context hab.sound, hcontext']
  · rw [hslots]
    exact hbody.slots
  · have hfn := (hbe.grows.toRefines.trans hS).function f hsize
    rw [hfn.params, hnew]
    exact hbody.types S (hde.grows.toRefines.trans hS)
  · have hfn := (hS.function f (Nat.lt_of_lt_of_le hsize hbe.grows.functions)).returns
    rw [ht] at hfn
    exact ⟨t, hfn.resolve_left (Option.some_ne_none t)⟩
  · rw [← hcontext']
    exact hbody.checked S (hde.grows.toRefines.trans hS)

/-! ## Programs -/

theorem gives_methods {ms : List Method} (ha : a.Sound) :
    Gives (ms.mapM method) a fun typed b => typed.map TypedMethod.erase = ms ∧ a.Extends b ∧
      b.context = a.context.bindAll typed ∧
      typed.flatMap TypedMethod.allSlots =
        SlotId.between a.store.slots.size b.store.slots.size ∧
      ∀ S, b.store.Refines S → TypedProgram.MethodsChecked S a.context typed := by
  induction ms generalizing a with
  | nil =>
    rw [List.mapM_nil]
    exact gives_pure ⟨rfl, .refl ha, rfl, (SlotId.between_self _).symm, fun _ _ => trivial⟩
  | cons m ms ih =>
    rw [List.mapM_cons]
    refine (gives_method ha m).bind fun typed b hm => ?_
    have hb := hm.extension
    refine (ih hb.sound).bind ?_
    rintro rest c ⟨herase, hc, hcontext, hslots, hchecked⟩
    rw [hm.context] at hcontext hchecked
    refine gives_pure ⟨?_, hb.trans hc, hcontext, ?_, fun S hS => ⟨?_, hchecked S hS⟩⟩
    · rw [List.map_cons, hm.erase, herase]
    · rw [List.flatMap_cons, hm.slots, hslots]
      exact SlotId.between_append hb.grows.slots hc.grows.slots
    · exact hm.checked S (hc.grows.toRefines.trans hS)

theorem gives_entryPoint (ha : a.Sound) :
    Gives entryPoint a fun _ b => a.Evolves false b ∧ b.store = a.store ∧
      ∃ f, a.context.functions "main" 0 = some f ∧ (a.store.function f).params = [] ∧
        (a.store.function f).returns = some .integer := by
  refine finds_get.bind fun b hb => ?_
  subst hb
  split
  · exact gives_fail _
  · rename_i f hf
    dsimp only
    split
    · rename_i hreturns
      have hkeyed := ha.store.findFunction? hf
      have hparams : 0 = (a.store.function f).params.length := congrArg Prod.snd hkeyed.2
      exact ⟨.note ha _, rfl, f, hf, List.length_eq_zero_iff.mp hparams.symm, hreturns⟩
    · exact gives_fail _

/-- What the analysis of a whole program gives: the program with findings that are right, and
variables numbered in the order of the text. -/
structure Settled (a : Analysis) (p : Program) (typed : TypedProgram) (b : Analysis) : Prop where
  erase : typed.erase = p
  extension : a.Extends b
  slots : typed.allSlots = SlotId.between a.store.slots.size b.store.slots.size
  checked : typed.Checked b.store a.context

theorem gives_program (ha : a.Sound) (p : Program) : Gives (program p) a (Settled a p) := by
  refine (gives_fields ha).bind ?_
  rintro fields b ⟨hfields, hab, hcontext, hslots, hchecked⟩
  refine (gives_methods hab.sound).bind ?_
  rintro methods c ⟨hmethods, hbc, hcontext', hslots', hchecked'⟩
  refine (gives_entryPoint hbc.sound).bind ?_
  rintro _ d ⟨hcd, hstore, f, hf, hparams, hreturns⟩
  rw [hcontext] at hcontext' hchecked'
  rw [hcontext'] at hf
  have hrefines : c.store.Refines d.store := hcd.grows.toRefines
  refine gives_pure ⟨?_, (hab.extends.trans hbc).trans hcd.extends, ?_, ?_, ?_, f, hf, ?_⟩
  · rw [TypedProgram.erase, hfields, hmethods]
  · rw [TypedProgram.allSlots, hslots, hslots', hstore]
    exact SlotId.between_append hab.grows.slots hbc.grows.slots
  · exact hchecked d.store (hbc.grows.toRefines.trans hrefines)
  · exact hchecked' d.store hrefines
  · rw [hstore]
    exact ⟨hparams, hreturns⟩

end BlockScript.Check
