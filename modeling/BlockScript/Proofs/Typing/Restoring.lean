import BlockScript.Proofs.Typing.Sparing

/-!
# The analysis comes back

Whatever the analysis checks, and whether or not it finds a fault, it ends in the scope and in the
method that it began in. Apart from that scope, no frame that there was has other names in it, and
they stand for what they stood for.
-/

namespace BlockScript

open Attempt Pass

/-- What the analysis can be asked to check. -/
inductive Subject
  | program (p : Program)
  | method (m : Method)
  | statement (s : Stmt)
  | expression (e : Expr)

def Subject.check : Subject → Check Unit
  | program p => do
    let _ ← Check.program p
  | method m => do
    let _ ← Check.method m
  | statement s => do
    let _ ← Check.stmt s
  | expression e => do
    let _ ← Check.expr e

namespace Analysis

/-- The analysis where the body of a method begins, in the frame with the parameters. -/
def inBody (a : Analysis) (m : Method) (types : List Ty) (returns : Option Ty) : Analysis :=
  let b : Analysis := (Check.begun a m types returns).enterFrame a.scope
  state (Check.defineParams m.params types { b with own := some ⟨a.store.functions.size⟩ })

/-- The states of an analysis that begins in the store `s` with a scope inside `parent`. -/
inductive Reachable (s : Store) (parent : Option FrameId) : Analysis → Prop
  | start : Reachable s parent (.start s parent)
  /-- A check has ended, in success or failure. -/
  | checked {a : Analysis} (h : Reachable s parent a) (x : Subject) :
      Reachable s parent (state (x.check a))
  | entered {a : Analysis} (h : Reachable s parent a) : Reachable s parent (a.enterFrame a.scope)
  /-- The outermost scope cannot be left: then the analysis stays where it is. -/
  | exited {a : Analysis} (h : Reachable s parent a) : Reachable s parent (state (leaveFrame a))
  | inBody {a : Analysis} (h : Reachable s parent a) (m : Method) (types : List Ty)
      (returns : Option Ty) : Reachable s parent (a.inBody m types returns)

/-- The analysis is back in `b` where it was in `a`. Of the frames that there were only the current
one may have changed, and of the functions only the method that the analysis is in. -/
structure Restores (a b : Analysis) : Prop where
  scope : b.scope = a.scope
  own : b.own = a.own
  frame : ∀ f, a.store.Has f → f ≠ a.scope → b.store.frame f = a.store.frame f
  spares : a.store.Spares a.own b.store

end Analysis

namespace Check

variable {α : Type} {a b c : Analysis} {declares : Bool}

/-- The state is extended, and all that there was is spared but the method that the analysis is
in. -/
structure Leaves (a b : Analysis) : Prop extends a.Extends b where
  spares : a.store.Spares a.own b.store

theorem Leaves.restores (h : Leaves a b) : a.Restores b where
  scope := h.scope
  own := h.own
  frame f hf hne := h.grows.frame f hf fun heq => hne (Option.some.inj heq).symm
  spares := h.spares

theorem Leaves.trans (hab : Leaves a b) (hbc : Leaves b c) : Leaves a c :=
  ⟨hab.toExtends.trans hbc.toExtends, hab.spares.trans (hab.own ▸ hbc.spares)⟩

theorem Minds.leaves (h : Minds declares a b) : Leaves a b := ⟨h.toEvolves.extends, h.spares⟩

theorem Guards.leaves (h : Guards a b) : Leaves a b := ⟨h.toExtends, h.spares.of_none _⟩

def Leaving (a b : Analysis) : Prop := a.Sound → Leaves a b

instance : IsPreorder Analysis Leaving where
  refl _ h := ⟨.refl h, .refl _ _⟩
  trans _ _ _ hab hbc ha := (hab ha).trans (hbc (hab ha).sound)

theorem keeps_leaving {x : Check α} (hx : Keeps (Careful declares) x) : Keeps Leaving x :=
  fun a => (hx a).imp (fun _ _ h ha => (h ha).leaves) fun _ _ h ha => (h ha).leaves

theorem leaving_field (b : Binding) : Keeps Leaving (field b) :=
  keeps_leaving (upholds_careful.keeps_binding b).locate

theorem leaving_method (m : Method) : Keeps Leaving (method m) := by
  refine (inert_ask _).locate.keeps.bind ?_
  rintro ⟨types, returns⟩ a
  refine ends_imp.mpr fun ha => ?_
  exact (guards_begun ha m types returns).imp (fun _ _ h => h.leaves) fun _ _ h => h.leaves

theorem leaving_entryPoint : Keeps Leaving entryPoint := by
  refine keeps_get.bind fun a => ?_
  split
  · exact keeps_fail _
  · exact .ite (keeps_modify fun b hb => ⟨.note hb .entryPointResolved, .refl _ _⟩) (keeps_fail _)

theorem leaving_program (p : Program) : Keeps Leaving (program p) := by
  refine (keeps_mapM fun b _ => leaving_field b).bind fun _ => ?_
  refine (keeps_mapM fun m _ => leaving_method m).bind fun _ => ?_
  exact leaving_entryPoint.bind fun _ => keeps_pure _

theorem leaving_check (x : Subject) : Keeps Leaving x.check := by
  cases x with
  | program p => exact (leaving_program p).bind fun _ => keeps_pure _
  | method m => exact (leaving_method m).bind fun _ => keeps_pure _
  | statement s => exact (keeps_leaving (upholds_careful.keeps_stmt s)).bind fun _ => keeps_pure _
  | expression e => exact (inert_expr e).keeps.bind fun _ => keeps_pure _

end Check

namespace Analysis

variable {s : Store} {parent : Option FrameId} {a : Analysis}

theorem sound_leaveFrame (ha : a.Sound) : (state (leaveFrame a)).Sound := by
  unfold leaveFrame
  rw [get_bind]
  cases hparent : (a.store.frame a.scope).parent with
  | none => exact ha
  | some f =>
    -- the frame around is older, so it is there
    have hlt := ha.store.parents _ _ hparent
    exact ⟨ha.store, Nat.lt_trans hlt ha.scope⟩

theorem sound_inBody (ha : a.Sound) (m : Method) (types : List Ty) (returns : Option Ty) :
    (a.inBody m types returns).Sound := by
  have hbegun := (Check.extends_begun ha m types returns).sound
  have hentered := hbegun.enterFrame hbegun.scope
  let b : Analysis := (Check.begun a m types returns).enterFrame a.scope
  let c : Analysis := { b with own := some ⟨a.store.functions.size⟩ }
  have hc : c.Sound := ⟨hentered.store, hentered.scope⟩
  exact ((Check.upholds_careful.keeps_defineParams m.params types c).state hc).sound

variable (hs : s.WellFormed) (hparent : ∀ p ∈ parent, s.Has p)
include hs hparent

/-- The invariant of all reachable states. -/
theorem Reachable.sound (h : Reachable s parent a) : a.Sound := by
  induction h with
  | start => exact ⟨hs.createRoot hparent nofun, Store.has_createRoot s parent .absent⟩
  | checked _ x ih => exact ((Check.leaving_check x _).state ih).sound
  | entered _ ih => exact ih.enterFrame ih.scope
  | exited _ ih => exact sound_leaveFrame ih
  | inBody _ m types returns ih => exact sound_inBody ih m types returns

/-- Every check comes back to where it began, in success and failure. -/
theorem Reachable.restores_check (h : Reachable s parent a) (x : Subject) :
    a.Restores (state (x.check a)) :=
  ((Check.leaving_check x a).state (h.sound hs hparent)).restores

omit hs hparent in
/-- In the body of a method, and behind a check that has failed, a block fails that has declared a
variable of its own. -/
theorem restores_nested : ∃ a x, x = Subject.statement (.conditional .start
      (.literal .start (.boolean true))
      [.declare ⟨.start, "y", some "Integer", none⟩, .expression .start (.name .start "z")] []) ∧
    Store.initial.WellFormed ∧ Reachable .initial none a ∧ a.own = some ⟨8⟩ ∧
    (result (x.check a)).isOk = false ∧
    a.store.frames.size < (state (x.check a)).store.frames.size ∧
    a.Restores (state (x.check a)) := by
  let m : Method := ⟨.start, "half", [⟨.start, "x", none⟩], none, []⟩
  let outside : Subject := .statement (.ret .start (.literal .start .nil))
  have hs := Store.wellFormed_initial
  have ha : Reachable .initial none _ := .inBody (.exited (.checked .start outside)) m [.any] none
  exact ⟨_, _, rfl, hs, ha, by decide +kernel, by decide +kernel, by decide +kernel,
    ha.restores_check hs (by simp) _⟩

end Analysis

end BlockScript
