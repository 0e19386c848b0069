import BlockScript.Proofs.Execution.Following
import BlockScript.Proofs.Soundness.Calls

/-!
# The methods of a program

A method is checked where itself and the methods before it are known, and it runs where all methods
are. There a call leads to the last method of its name and arity, and where there is none, to what
it led to without the methods.
-/

namespace BlockScript

open TypedMethod

variable {S : Store} {Γ Δ : Context} {m : TypedMethod} {ms before after : List TypedMethod}
  {name : String} {arity : Nat} {key : String × Nat} {f g : FunctionId} {n first : Nat}

/-! ## The last method of a name -/

namespace TypedMethod

/-- The last of some methods that is known under the key. -/
def latest? (ms : List TypedMethod) (key : String × Nat) : Option TypedMethod :=
  ms.reverse.find? fun m => m.key = key

theorem latest?_cons : latest? (m :: ms) key =
    (latest? ms key).or (if m.key = key then some m else none) := by
  unfold latest?
  rw [List.reverse_cons, List.find?_append, List.find?_singleton]
  simp only [decide_eq_true_eq]

theorem latest?_append : latest? (before ++ after) key =
    (latest? after key).or (latest? before key) := by
  unfold latest?
  rw [List.reverse_append, List.find?_append]

theorem mem_of_latest? (h : latest? ms key = some m) : m ∈ ms ∧ m.key = key := by
  have hkey := List.find?_some h
  exact ⟨List.mem_reverse.mp (List.mem_of_find?_eq_some h), of_decide_eq_true hkey⟩

end TypedMethod

namespace Context

theorem bindAll_concat (Γ : Context) (ms : List TypedMethod) (m : TypedMethod) :
    Γ.bindAll (ms ++ [m]) = (Γ.bindAll ms).bind m :=
  List.foldl_append

theorem slots_bindAll (Γ : Context) (ms : List TypedMethod) : (Γ.bindAll ms).slots = Γ.slots := by
  induction ms generalizing Γ with
  | nil => rfl
  | cons m ms ih => exact ih (Γ.bind m)

theorem slots_defineAll (Γ : Context) (ms : List Method) (n : Nat) :
    (Γ.defineAll ms n).slots = Γ.slots := by
  induction ms generalizing Γ n with
  | nil => rfl
  | cons m ms ih => exact ih (Γ.define m.name m.params.length ⟨n⟩) (n + 1)

theorem functions_bindAll (Γ : Context) (ms : List TypedMethod) (name : String) (arity : Nat) :
    (Γ.bindAll ms).functions name arity =
      ((latest? ms (name, arity)).map function).or (Γ.functions name arity) := by
  induction ms generalizing Γ with
  | nil => rfl
  | cons m ms ih =>
    refine (ih (Γ.bind m)).trans ?_
    rw [latest?_cons]
    cases latest? ms (name, arity) with
    | some d => rfl
    | none =>
      by_cases hkey : m.key = (name, arity)
      · rw [if_pos hkey]
        exact if_pos hkey.symm
      · rw [if_neg hkey]
        exact if_neg fun heq => hkey heq.symm

/-- A function that is known with the methods was known without them, or it is that of a method. -/
theorem bound_of_bindAll (h : (Γ.bindAll ms).functions name arity = some f) :
    Γ.functions name arity = some f ∨ ∃ d ∈ ms, d.key = (name, arity) ∧ d.function = f := by
  rw [functions_bindAll] at h
  cases hlatest : latest? ms (name, arity) with
  | some d =>
    rw [hlatest] at h
    obtain ⟨hd, hkey⟩ := mem_of_latest? hlatest
    exact .inr ⟨d, hd, hkey, Option.some.inj h⟩
  | none =>
    rw [hlatest] at h
    exact .inl h

end Context

theorem Watch.Code.ofMethods_cons {d : TypedMethod} (h : ofMethods ms (n + 1) g = some d) :
    ofMethods (m :: ms) n g = some d := by
  obtain ⟨i, rfl, hi⟩ := ofMethods_eq_some.mp h
  refine ofMethods_eq_some.mpr ⟨i + 1, ?_, hi⟩
  rw [Nat.add_assoc, Nat.add_comm 1 i]

/-- Of methods that are defined in order, the last one of a name and an arity is found. -/
theorem Context.defineAll_latest (Δ : Context) (ms : List TypedMethod) (n : Nat) (name : String)
    (arity : Nat) :
    match latest? ms (name, arity) with
    | some m => ∃ g, (Δ.defineAll (ms.map erase) n).functions name arity = some g ∧
        Watch.Code.ofMethods ms n g = some m
    | none => (Δ.defineAll (ms.map erase) n).functions name arity = Δ.functions name arity := by
  induction ms generalizing Δ n with
  | nil => rfl
  | cons m ms ih =>
    have hrest := ih (Δ.define m.name m.params.length ⟨n⟩) (n + 1)
    rw [latest?_cons]
    cases hlatest : latest? ms (name, arity) with
    | some d =>
      rw [hlatest] at hrest
      obtain ⟨g, hg, hcode⟩ := hrest
      exact ⟨g, hg, Watch.Code.ofMethods_cons hcode⟩
    | none =>
      rw [hlatest] at hrest
      by_cases hkey : m.key = (name, arity)
      · rw [if_pos hkey]
        refine ⟨⟨n⟩, hrest.trans (if_pos hkey.symm), ?_⟩
        exact Watch.Code.ofMethods_eq_some.mpr ⟨0, rfl, rfl⟩
      · rw [if_neg hkey]
        exact hrest.trans (if_neg fun heq => hkey heq.symm)

/-! ## What calls lead to -/

/-- A call that goes to `f` by the analysis leads to `g` where the methods are defined, from the
number `first` on, besides what `Γ` knows. -/
structure TypedMethod.Leads (Γ : Context) (known : String → Nat → FunctionId → FunctionId → Prop)
    (ms : List TypedMethod) (first : Nat) (name : String) (arity : Nat) (f g : FunctionId) :
    Prop where
  bound : Γ.functions name arity = some f ∨ ∃ d ∈ ms, d.key = (name, arity) ∧ d.function = f
  latest : ∀ m ∈ latest? ms (name, arity), Watch.Code.ofMethods ms first g = some m
  known : latest? ms (name, arity) = none → known name arity f g

section

variable {V : SlotId → SlotId → Prop} {known : String → Nat → FunctionId → FunctionId → Prop}

/-- Methods that are bound in the analysis and defined in the run, in the same order. -/
theorem Context.Agrees.bindAll (h : Agrees V known Γ Δ) (ms : List TypedMethod) (n : Nat) :
    Agrees V (Leads Γ known ms n) (Γ.bindAll ms) (Δ.defineAll (ms.map erase) n) := by
  refine ⟨fun id v hv => ?_, fun name arity f hf => ?_⟩
  · rw [slots_bindAll] at hv
    rw [slots_defineAll]
    exact h.slots id v hv
  · have hbound := bound_of_bindAll hf
    have hrun := Δ.defineAll_latest ms n name arity
    rw [functions_bindAll] at hf
    cases hlatest : latest? ms (name, arity) with
    | some m =>
      rw [hlatest] at hrun
      obtain ⟨g, hg, hcode⟩ := hrun
      refine ⟨g, hg, hbound, fun d hd => ?_, fun hnone => ?_⟩
      · rw [hlatest] at hd
        cases hd
        exact hcode
      · rw [hlatest] at hnone
        cases hnone
    | none =>
      rw [hlatest] at hf hrun
      obtain ⟨g, hg, hknown⟩ := h.functions name arity f hf
      refine ⟨g, hrun.trans hg, hbound, fun d hd => ?_, fun _ => hknown⟩
      rw [hlatest] at hd
      cases hd

/-- What a method sees of the methods before it leads to the same as what it sees of all. -/
theorem Context.Agrees.of_before
    (h : Agrees V (Leads Γ known (before ++ after) n) (Γ.bindAll (before ++ after)) Δ) :
    Agrees V (Leads Γ known (before ++ after) n) (Γ.bindAll before) Δ := by
  refine ⟨fun id v hv => ?_, fun name arity f hf => ?_⟩
  · rw [slots_bindAll] at hv
    exact h.slots id v (by rwa [slots_bindAll])
  have hbound : Γ.functions name arity = some f ∨
      ∃ d ∈ before ++ after, d.key = (name, arity) ∧ d.function = f := by
    refine (bound_of_bindAll hf).imp_right ?_
    rintro ⟨d, hd, hrest⟩
    exact ⟨d, List.mem_append_left after hd, hrest⟩
  cases hlatest : latest? (before ++ after) (name, arity) with
  | some m =>
    have hall : (Γ.bindAll (before ++ after)).functions name arity = some m.function := by
      rw [functions_bindAll, hlatest]
      rfl
    obtain ⟨g, hg, hleads⟩ := h.functions name arity m.function hall
    refine ⟨g, hg, hbound, hleads.latest, fun hnone => ?_⟩
    rw [hlatest] at hnone
    cases hnone
  | none =>
    have hbefore : latest? before (name, arity) = none := by
      rw [latest?_append] at hlatest
      exact (Option.or_eq_none_iff.mp hlatest).2
    have hall : (Γ.bindAll (before ++ after)).functions name arity = some f := by
      rw [functions_bindAll, hbefore] at hf
      rw [functions_bindAll, hlatest]
      exact hf
    obtain ⟨g, hg, hleads⟩ := h.functions name arity f hall
    exact ⟨g, hg, hleads⟩

end

/-- A method is checked in the context that the methods before it leave and that knows itself. -/
theorem TypedProgram.MethodsChecked.of_append (h : MethodsChecked S Γ (before ++ m :: after)) :
    m.Checked S ((Γ.bindAll before).bind m) := by
  induction before generalizing Γ with
  | nil => exact h.1
  | cons d before ih => exact ih h.2

/-- Each method is checked in a context that knows itself and the methods before it. -/
theorem TypedProgram.MethodsChecked.split (h : MethodsChecked S Γ ms) (hm : m ∈ ms) :
    ∃ before after, ms = before ++ after ∧ m.Checked S (Γ.bindAll before) := by
  obtain ⟨before, after, rfl⟩ := List.append_of_mem hm
  refine ⟨before ++ [m], after, by simp, ?_⟩
  rw [Context.bindAll_concat]
  exact h.of_append

/-! ## The methods of a run -/

namespace Setting

variable {σ : Setting} {v : Watched} {b : Machine}

/-- The setting in which a program calls its methods, where `Γ` is known besides. -/
def calling (σ : Setting) (Γ : Context) (ms : List TypedMethod) (first : Nat)
    (before : List Observation) : Setting :=
  { σ with
    code := .ofMethods ms first
    globals := Γ.bindAll ms
    leads := Leads Γ σ.leads ms first
    before }

/-- Once its methods are defined, the invariant holds in the setting where they are called. -/
theorem Ready.calling (hv : σ.Ready v) (hroot : v.machine.scope = σ.root) (hΓ : σ.Agrees Γ v)
    (h : Run.Defines v.machine (ms.map erase) b) :
    (σ.calling Γ ms v.machine.store.functions.size v.trace).Ready ⟨b, v.trace⟩ ∧
      (σ.calling Γ ms v.machine.store.functions.size v.trace).Agrees (Γ.bindAll ms)
        ⟨b, v.trace⟩ := by
  let τ := σ.calling Γ ms v.machine.store.functions.size v.trace
  have hgrows := h.extension.grows
  have hscope : b.scope = σ.root := h.extension.scope.trans hroot
  have hagrees : τ.Agrees (Γ.bindAll ms) ⟨b, v.trace⟩ := by
    rw [Agrees, h.context]
    exact Context.Agrees.bindAll hΓ ms _
  refine ⟨⟨?_, h.extension.sound.scope⟩, hagrees⟩
  exact {
    wellFormed := h.extension.sound.store
    known := hv.valid.known.trans hgrows.toRefines
    resolves := hv.valid.resolves
    typed := hv.valid.typed
    dispatched := ⟨[], rfl, by simp⟩
    bound := fun slot u hu => Nat.lt_of_lt_of_le (hv.valid.bound slot u hu) hgrows.slots
    unique := fun slot u hu => hv.valid.unique slot u hu
    values := fun slot u hu => by
      have hvalue := hv.valid.values slot u hu
      rwa [Store.slot, ← h.slots] at hvalue
    root := hgrows.has hv.valid.root
    globals := by
      rw [Agrees, Pass.context, hscope] at hagrees
      exact hagrees
    function := fun g m hm => (Watch.implements_of_defines h hm).1
    methods := fun g m hm => by
      have himplements := (Watch.implements_of_defines h hm).2
      rwa [hroot] at himplements
    print := fun hs => by
      obtain ⟨hsize, hbody⟩ := hv.valid.print hs
      have hfn := hgrows.toRefines.function _ hsize
      exact ⟨Nat.lt_of_lt_of_le hsize hgrows.functions, hfn.body.trans hbody⟩ }

end Setting

end BlockScript
