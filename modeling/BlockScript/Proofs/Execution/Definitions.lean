import BlockScript.Proofs.Execution.Activity
import BlockScript.Proofs.Execution.Growth
import BlockScript.Proofs.Store.Renumbering

/-!
# What a program defines

The fields of a program are made first, and then its methods. Where the types in the heads of the
methods are known, defining them makes the functions that the heads say, and does nothing else.
-/

namespace BlockScript

open Attempt Pass

/-- The types that the head of the method names are known. -/
def Store.Types (s : Store) (m : Method) : Prop :=
  ∃ types returns, s.paramTypes m.params = .ok types ∧ s.namedType m.returnType = .ok returns

/-- The function that a method is in a scope, when its types are known. -/
def Method.function (d : Method) (s : Store) (scope : FrameId) : Function where
  name := d.name
  params := (s.paramTypes d.params).toOption.getD []
  returns := (s.typeOrAny d.returnType).toOption
  body := .method d scope

namespace Store

variable {s t : Store}

theorem Types.congr {m : Method} (hm : s.Types m) (h : t.catalog = s.catalog) : t.Types m := by
  obtain ⟨types, returns, htypes, hreturns⟩ := hm
  exact ⟨types, returns, (paramTypes_congr h _).trans htypes, (namedType_congr h _).trans hreturns⟩

theorem Types.key {d : Method} (h : s.Types d) (scope : FrameId) :
    (d.function s scope).key = d.key := by
  obtain ⟨types, returns, htypes, -⟩ := h
  have hlength := paramTypes_length htypes
  rw [Function.key, Method.function, Function.arity, htypes, Method.key, ← hlength]
  rfl

end Store

theorem Method.function_congr {s t : Store} (h : t.catalog = s.catalog) (d : Method)
    (scope : FrameId) : d.function t scope = d.function s scope := by
  rw [function, Store.paramTypes_congr h, Store.typeOrAny_congr h, function]

namespace Run

variable {m : Machine}

theorem keeps_fields (fuel : Nat) (bs : List Binding) :
    Keeps Broadens (bs.forM (makeField fuel)) := by
  have hfield (b : Binding) : Keeps (Steps true) (makeField fuel b) := by
    have hinitial := (keeps_initial (keeps_invoke fuel) b).locate (p := b.position)
    exact (keeps_of_false hinitial true).bind fun _ =>
      (keeps_define _ _ _).bind fun _ => keeps_pure _
  exact keeps_forM fun b _ => keeps_broadens (hfield b)

theorem defineMethod_eq {d : Method} (h : m.store.Types d) : defineMethod d m =
    .ok () { m with store := (m.store.defineFunction m.scope (d.function m.store m.scope)).2 } := by
  obtain ⟨types, returns, htypes, hreturns⟩ := h
  have hreturns' : m.store.typeOrAny d.returnType = .ok (returns.getD .any) := by
    rw [Store.typeOrAny, hreturns]
    rfl
  have hsignature : (ask fun s _ => do
      return (← s.paramTypes d.params, ← s.typeOrAny d.returnType) : Run (List Ty × Ty)) m =
      .ok (types, returns.getD .any) m := by
    refine ask_of_ok ?_
    rw [htypes, hreturns']
    rfl
  refine bind_eq_ok.mpr ⟨_, _, hsignature, ?_⟩
  rw [Method.function, htypes, hreturns']
  rfl

/-- Methods are defined as functions of the scope, in order. -/
theorem defineMethods_eq {ds : List Method} (h : ∀ d ∈ ds, m.store.Types d) :
    ds.forM defineMethod m = .ok ()
      { m with
        store := m.store.defineAll m.scope (ds.map fun d => d.function m.store m.scope) } := by
  induction ds generalizing m with
  | nil => rfl
  | cons d ds ih =>
    rw [List.forall_mem_cons] at h
    let n : Machine :=
      { m with store := (m.store.defineFunction m.scope (d.function m.store m.scope)).2 }
    have hcatalog : n.store.catalog = m.store.catalog := rfl
    have hrest := ih (m := n) fun e he => (h.2 e he).congr hcatalog
    simp only [Method.function_congr hcatalog] at hrest
    exact bind_eq_ok.mpr ⟨(), n, defineMethod_eq h.1, hrest⟩

end Run

end BlockScript
