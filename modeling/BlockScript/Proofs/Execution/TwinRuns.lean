import BlockScript.Proofs.Execution.Correspondence
import BlockScript.Proofs.Execution.Twins

/-!
# Runs of twin machines

Twin machines correspond, so they do the same with the same part of a program, and are twins again.
-/

namespace BlockScript.Twinning

open Attempt Pass Run

variable {τ : Twinning} {a b : Machine}

/-- Twins correspond, and so does what they have in common and have made since. -/
def correspondence (τ : Twinning) : Correspondence where
  machines := τ.Twins
  scopes := τ.Scopes
  slots := τ.Slots
  functions := τ.Functions
  objects := τ.objects

theorem SameFunctions.correspond {F G : Function} (h : τ.SameFunctions F G) :
    τ.correspondence.SameFunctions F G := by
  obtain ⟨hname, hparams, hbody⟩ := h
  refine ⟨hname, hparams, ?_⟩
  generalize F.body = X, G.body = Y at hbody ⊢
  cases hbody with
  | absent => exact .absent
  | print => exact .print
  | native hwithin => exact .native hwithin
  | method hc => exact .method hc

theorem Twins.findMethod? (hτ : τ.Lawful) (h : τ.Twins a b) (t : Ty) (name : String)
    (arguments : Nat) :
    Option.Rel τ.Functions (a.store.findMethod? t name arguments)
      (b.store.findMethod? t name arguments) := by
  have hmembers : b.store.findMethod? t name arguments = a.store.findMethod? t name arguments := by
    rw [Store.findMethod?, Store.membersOf, h.members hτ, Store.findMethod?, Store.membersOf]
  rw [hmembers]
  cases hx : a.store.findMethod? t name arguments with
  | none => exact .none
  | some x => exact .some (h.method hτ hx).2

theorem Twins.answers (hτ : τ.Lawful) (h : τ.Twins a b) : τ.correspondence.Answers a b where
  left := h.leftSound
  right := h.rightSound
  depth := h.depth
  catalog := h.catalog hτ
  slot v w hvw := by
    obtain ⟨hsame, hwithin⟩ := h.sameSlots hvw
    exact ⟨congrArg Slot.value hsame.symm, hwithin⟩
  function x y hxy := (h.sameFunctions hτ hxy).correspond
  findSlot? := h.findSlot? hτ
  findFunction? := h.findFunction? hτ
  findMethod? := h.findMethod? hτ
  fields f hf := h.fields hτ hf

theorem Lawful.correspondence (hτ : τ.Lawful) : τ.correspondence.Lawful where
  answers h := h.answers hτ
  note h event := h.note event
  enterScope h := h.enterFrame hτ (.inr h.scope) h.leftScope
  enterCall h hc hhas _ := h.enterCall hτ hc hhas
  leave h h' hc hd := h.leave h' hc hd
  define h _ hslot := h.define hτ ⟨rfl, hslot⟩
  assign h hvw hvalue := h.assign hτ hvw hvalue

/-! ## Calls -/

/-- A call of the same method on machines that are alike, in scopes that correspond. -/
theorem paired_call (hτ : τ.Lawful) (ha : a.Sound) (hb : b.Sound) (h : τ.Alike a b)
    {x y : FunctionId} {d : Method} {c c' : FrameId} (hx : (a.store.function x).body = .method d c)
    (hy : (b.store.function y).body = .method d c')
    (hparams : (b.store.function y).params = (a.store.function x).params) (hc : τ.Scopes c c')
    {R : Machine → Machine → Prop}
    (hnote : ∀ event, R { a with log := event :: a.log } { b with log := event :: b.log })
    (hleave : ∀ p q, τ.Twins p q → (a.leave p).Sound → (b.leave q).Sound →
      R (a.leave p) (b.leave q)) {args : List Value} (hargs : ∀ v ∈ args, v.Within τ.objects)
    (fuel : Nat) :
    Paired R τ.Values (invoke fuel x args a) (invoke fuel y args b) := by
  rw [invoke_eq]
  exact Correspondence.paired_dispatch hτ.correspondence
    (Correspondence.parallel_methodBody hτ.correspondence fuel) (keeps_methodBody fuel) ha hb
    h.depth hx hy hparams hargs (hnote _)
    ((h.note _).enterCall hτ hc (ha.store.closures x d c hx)) hleave

/-! ## Programs -/

theorem parallel_defineMethod (hτ : τ.Lawful) (m : Method) :
    τ.correspondence.Parallel Eq (defineMethod m) := by
  have htypes : τ.correspondence.Parallel Eq (ask fun s _ => do
      return (← s.paramTypes m.params, ← s.typeOrAny m.returnType)) := by
    refine Correspondence.parallel_ask hτ.correspondence fun a b h => ?_
    rw [Store.paramTypes_congr h.catalog, Store.typeOrAny_congr h.catalog]
    exact .same fun _ _ => rfl
  refine htypes.bind ?_
  rintro ⟨types, returns⟩ _ rfl
  refine Lockstep.bind (Q := fun _ _ => True) ?_ fun _ _ _ => lockstep_pure rfl
  refine lockstep_modifyGet fun a b (h : τ.Twins a b) =>
    ⟨trivial, h.defineFunction hτ ⟨rfl, rfl, .method (.inr h.scope)⟩ ?_ ?_⟩
  · rintro d c ⟨⟩
    rfl
  · rintro d c ⟨⟩
    rfl

theorem parallel_program (hτ : τ.Lawful) (fuel : Nat) (p : Program) :
    τ.correspondence.Parallel τ.correspondence.Values (program fuel p) := by
  have hκ := hτ.correspondence
  have hcall := Correspondence.calls_invoke hκ fuel
  refine (lockstep_forM fun b => ?_).bind fun _ _ _ => ?_
  · refine (Correspondence.parallel_initial hκ hcall b).locate.bind ?_
    rintro ⟨v, type⟩ _ ⟨rfl, hv⟩
    exact (Correspondence.parallel_define hκ b.name type v hv).bind fun _ _ _ => lockstep_pure rfl
  · refine (lockstep_forM (parallel_defineMethod hτ)).bind fun _ _ _ => ?_
    exact Correspondence.parallel_callMain hκ fuel

end BlockScript.Twinning
