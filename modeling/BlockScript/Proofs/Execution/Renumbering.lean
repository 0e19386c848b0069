import BlockScript.Proofs.Execution.Correspondence
import BlockScript.Proofs.Store.Renumbering

/-!
# Runs over renumbered functions

A run never sees the number of a function, so it does the same where functions have other numbers.
-/

namespace BlockScript

open Attempt Pass

theorem rel_of_map_eq {α β γ : Type} {f : α → γ} {g : β → γ} {o : Option α} {p : Option β}
    (h : p.map g = o.map f) : Option.Rel (fun a b => g b = f a) o p := by
  cases o with
  | none =>
    rw [Option.map_none, Option.map_eq_none_iff] at h
    rw [h]
    exact .none
  | some a =>
    obtain ⟨b, rfl, hb⟩ := Option.map_eq_some_iff.mp h
    exact .some hb

/-- The machines are the same but for the numbers of functions. -/
structure Pass.Renumbers (a b : Machine) : Prop where
  store : a.store.Renumbers b.store
  scope : b.scope = a.scope
  log : b.log = a.log
  own : b.own = a.own

namespace Correspondence

/-- Machines that are the same but for the numbers of functions, which stay those that `S` and `T`
give them. -/
structure Renumbered (S T : Store) (a b : Machine) : Prop extends a.Renumbers b where
  left : a.Sound
  right : b.Sound
  leftFunctions : a.store.functions = S.functions
  rightFunctions : b.store.functions = T.functions

def renumbering (S T : Store) : Correspondence where
  machines := Renumbered S T
  scopes := Eq
  slots := Eq
  functions x y := T.function y = S.function x
  objects _ := True

variable {S T : Store} {a b c d : Machine}

theorem sameFunctions_renumbering (fn : Function) : (renumbering S T).SameFunctions fn fn := by
  refine ⟨rfl, rfl, ?_⟩
  cases fn.body with
  | absent => exact .absent
  | print => exact .print
  | native run => exact .native fun _ _ _ _ _ _ _ => trivial
  | method d c => exact .method rfl

namespace Renumbered

theorem function_left (h : Renumbered S T a b) : a.store.function = S.function :=
  funext fun x => by rw [Store.function, h.leftFunctions, Store.function]

theorem function_right (h : Renumbered S T a b) : b.store.function = T.function :=
  funext fun x => by rw [Store.function, h.rightFunctions, Store.function]

theorem answers (h : Renumbered S T a b) : (renumbering S T).Answers a b where
  left := h.left
  right := h.right
  depth := h.own
  catalog := h.store.catalog
  slot v w hvw := by
    cases hvw
    rw [Store.slot, h.store.slots, ← Store.slot]
    exact ⟨rfl, fun _ _ _ _ _ => trivial⟩
  function x y hxy := by
    rw [h.function_left, h.function_right, hxy]
    exact sameFunctions_renumbering _
  findSlot? id := by
    rw [h.scope, h.store.findSlot? h.left.store h.right.store]
    exact rel_self fun _ _ => rfl
  findFunction? name arity := by
    rw [h.scope]
    have hfound := h.store.findFunction? h.left.store h.right.store a.scope name arity
    rw [h.function_left, h.function_right] at hfound
    exact rel_of_map_eq hfound
  findMethod? t name arguments := by
    have hmembers : b.store.membersOf t = a.store.membersOf t := by
      rw [Store.membersOf, h.store.members, Store.membersOf]
    rw [Store.findMethod?, Store.findMethod?, hmembers]
    refine rel_self fun x hx => ?_
    have hsame := h.store.methods t (name, arguments + 1) x hx
    rwa [h.function_left, h.function_right] at hsame
  fields f _ id := by
    rw [(h.store.frame f).slots]
    exact rel_self fun _ _ => rfl

theorem note (h : Renumbered S T a b) (event : Event) :
    Renumbered S T { a with log := event :: a.log } { b with log := event :: b.log } :=
  { h with
    log := congrArg (event :: ·) h.log
    left := ⟨h.left.store, h.left.scope⟩
    right := ⟨h.right.store, h.right.scope⟩ }

theorem enterFrame (h : Renumbered S T a b) {f : FrameId} (hf : a.store.Has f) :
    Renumbered S T (a.enterFrame f) (b.enterFrame f) :=
  { h with
    store := h.store.createFrame (some f)
    scope := congrArg FrameId.mk h.store.frames
    left := h.left.enterFrame hf
    right := h.right.enterFrame (h.store.has.mpr hf) }

end Renumbered

theorem lawful_renumbering (S T : Store) : (renumbering S T).Lawful where
  answers h := h.answers
  note h event := h.note event
  enterScope h := by
    rw [h.scope]
    exact h.enterFrame h.left.scope
  enterCall h hc hhas _ := by
    cases hc
    have henter := h.enterFrame hhas
    exact { henter with
      own := congrArg (· + 1) henter.own
      left := ⟨henter.left.store, henter.left.scope⟩
      right := ⟨henter.right.store, henter.right.scope⟩ }
  leave h h' hc hd := { h' with
    scope := h.scope
    own := h.own
    left := ⟨h'.left.store, hc⟩
    right := ⟨h'.right.store, hd⟩ }
  define h slot _ := { h with
    store := by
      rw [h.scope]
      exact h.store.defineSlot _ slot
    left := (Evolves.define h.left slot).sound
    right := (Evolves.define h.right slot).sound }
  assign h hvw _ := by
    cases hvw
    exact { h with
      store := h.store.assign _ _
      left := h.left.assign _ _
      right := h.right.assign _ _ }

end Correspondence

end BlockScript
